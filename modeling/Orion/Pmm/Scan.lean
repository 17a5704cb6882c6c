import Mathlib.Data.List.Infix
import Mathlib.Data.List.Nodup
import Mathlib.Data.List.Pairwise
import Mathlib.Data.List.TakeWhile
import Orion.Pmm.Model

/-!
# What the scan of the memory map still has to hand out

`pmm_alloc_page` keeps three numbers instead of a list.  This file recovers the list: `remaining`
is the sequence of pages that the scan will look at from a given state on, and `scanLoop_spec` says
that the loop drops the reserved pages at its front and hands out the next one.

The list is the one the *code* walks.  For a descriptor that ends at `0xFFFFFFFFFFFFF000` the test
`scan_addr + PAGE_SIZE <= scan_end` wraps to `0 <= scan_end` when the descriptor is used up, and the
loop goes on to the page at that address; `scanPages` says so.
-/

namespace Orion.Pmm

/-- The last page boundary of the 64-bit address space. -/
def topPage : ℕ := 2 ^ 64 - 4096

/-- The pages of `[a, e)`. -/
def pageRange (a e : ℕ) : List ℕ := (List.range ((e - a) / pageSize)).map (a + pageSize * ·)

theorem pageRange_of_lt {a e : ℕ} (h : e < a + pageSize) : pageRange a e = [] := by
  have : (e - a) / pageSize = 0 := Nat.div_eq_of_lt (by unfold pageSize at *; omega)
  simp [pageRange, this]

theorem pageRange_of_le {a e : ℕ} (h : a + pageSize ≤ e) :
    pageRange a e = a :: pageRange (a + pageSize) e := by
  have hd : (e - a) / pageSize = (e - (a + pageSize)) / pageSize + 1 := by
    unfold pageSize at *
    omega
  simp only [pageRange, hd, List.range_succ_eq_map, List.map_cons, List.map_map]
  congr 1
  refine List.map_congr_left fun k _ => ?_
  simp only [Function.comp_apply, Nat.succ_eq_add_one]
  ring

theorem mem_pageRange {a e p : ℕ} :
    p ∈ pageRange a e ↔ a ≤ p ∧ p + pageSize ≤ e ∧ (p - a) % pageSize = 0 := by
  simp only [pageRange, List.mem_map, List.mem_range]
  unfold pageSize
  constructor
  · rintro ⟨k, hk, rfl⟩
    omega
  · rintro ⟨h1, h2, h3⟩
    exact ⟨(p - a) / 4096, by omega, by omega⟩

theorem pageRange_nodup (a e : ℕ) : (pageRange a e).Nodup := by
  refine List.Nodup.map (fun x y h => ?_) List.nodup_range
  simp only [pageSize] at h
  omega

theorem pageRange_length (a e : ℕ) : (pageRange a e).length = (e - a) / pageSize := by
  simp [pageRange]

/-- The pages that the `while` loop visits when it is at `a` in a descriptor that ends at `e`. -/
def scanPages (a e : ℕ) : List ℕ := pageRange a e ++ if e = topPage then [topPage] else []

/-- The pages that the scan visits in one descriptor. -/
def descPages (d : EfiMemDesc) : List ℕ :=
  if d.type ≠ 7 ∨ d.pages = 0 then []
  else if descEnd d < d.physicalStart ∨ descEnd d ≤ pmmMinAddr then []
  else if clampStart d.physicalStart ≥ descEnd d then []
  else scanPages (clampStart d.physicalStart) (descEnd d)

/-- The descriptors from offset `off` on. -/
def descsFrom (m : Machine) (bi : OrionBootInfo) (off : ℕ) : List EfiMemDesc :=
  descLoop m bi (bi.memoryMapSize + 1 - off) off

/-- What is left of the descriptor being handed out. -/
def currentPages (s : State) : List ℕ :=
  if s.scanAddr = 0 then [] else scanPages s.scanAddr s.scanEnd

/-- The pages the scan has still to visit. -/
def remaining (m : Machine) (bi : OrionBootInfo) (s : State) : List ℕ :=
  currentPages s ++ (descsFrom m bi s.scanOff).flatMap descPages

/-- Memory maps that the allocator is given: descriptors of at least 40 bytes whose offsets do not
wrap, and conventional memory that is page-aligned, disjoint and does not wrap. -/
structure MapOk (m : Machine) (bi : OrionBootInfo) : Prop where
  descSize : efiMemDescSize ≤ bi.memoryDescriptorSize
  extent : bi.memoryMapSize + bi.memoryDescriptorSize < 2 ^ 64
  aligned : ∀ d ∈ descriptors m bi, d.type = 7 → d.physicalStart % pageSize = 0
  noWrap : ∀ d ∈ descriptors m bi, d.type = 7 → d.physicalStart + d.pages * pageSize < 2 ^ 64
  disjoint : (descriptors m bi).Pairwise fun d e => d.type = 7 → e.type = 7 →
    ∀ a, ¬ ((d.physicalStart ≤ a ∧ a < d.physicalStart + d.pages * pageSize) ∧
      (e.physicalStart ≤ a ∧ a < e.physicalStart + e.pages * pageSize))

theorem MapOk.descSize_ne_zero {m : Machine} {bi : OrionBootInfo} (hm : MapOk m bi) :
    bi.memoryDescriptorSize ≠ 0 := by
  have := hm.descSize
  unfold efiMemDescSize at this
  omega

/-! ## The walk over descriptors -/

section Walk

variable {m : Machine} {bi : OrionBootInfo}

/-- With enough fuel the loop over descriptors does not depend on it. -/
theorem descLoop_fuel (hm : MapOk m bi) : ∀ (f g off : ℕ),
    off + efiMemDescSize ≤ bi.memoryMapSize + bi.memoryDescriptorSize →
    bi.memoryMapSize + 1 - off ≤ f → bi.memoryMapSize + 1 - off ≤ g →
    descLoop m bi f off = descLoop m bi g off := by
  have hext := hm.extent
  have hsize := hm.descSize
  intro f
  induction f with
  | zero =>
    intro g off hoff hf hg
    cases g with
    | zero => rfl
    | succ g =>
      have : ¬ u64 (off + efiMemDescSize) ≤ bi.memoryMapSize := by
        rw [u64_of_lt (by omega)]
        omega
      simp [descLoop, this]
  | succ f ih =>
    intro g off hoff hf hg
    have hw : u64 (off + efiMemDescSize) = off + efiMemDescSize := u64_of_lt (by omega)
    cases g with
    | zero =>
      have : ¬ u64 (off + efiMemDescSize) ≤ bi.memoryMapSize := by
        rw [hw]
        omega
      simp [descLoop, this]
    | succ g =>
      simp only [descLoop, hw]
      by_cases hle : off + efiMemDescSize ≤ bi.memoryMapSize
      · have hstep : u64 (off + bi.memoryDescriptorSize) = off + bi.memoryDescriptorSize :=
          u64_of_lt (by unfold efiMemDescSize at *; omega)
        rw [if_pos hle, if_pos hle, hstep,
          ih g (off + bi.memoryDescriptorSize) (by omega) (by unfold efiMemDescSize at *; omega)
            (by unfold efiMemDescSize at *; omega)]
      · rw [if_neg hle, if_neg hle]

theorem descriptors_eq_descsFrom : descriptors m bi = descsFrom m bi 0 := rfl

/-- One descriptor further. -/
theorem descsFrom_of_le (hm : MapOk m bi) {off : ℕ}
    (h : off + efiMemDescSize ≤ bi.memoryMapSize) :
    descsFrom m bi off = descOf m bi off :: descsFrom m bi (off + bi.memoryDescriptorSize) := by
  have hext := hm.extent
  have hsize := hm.descSize
  have hw : u64 (off + efiMemDescSize) = off + efiMemDescSize :=
    u64_of_lt (by unfold efiMemDescSize at *; omega)
  have hstep : u64 (off + bi.memoryDescriptorSize) = off + bi.memoryDescriptorSize :=
    u64_of_lt (by unfold efiMemDescSize at *; omega)
  rw [descsFrom, show bi.memoryMapSize + 1 - off = (bi.memoryMapSize - off) + 1 by
    unfold efiMemDescSize at *; omega, descLoop, hw, if_pos h, hstep, descsFrom]
  congr 1
  exact descLoop_fuel hm _ _ _ (by omega) (by unfold efiMemDescSize at *; omega) (le_refl _)

theorem descsFrom_of_gt (hm : MapOk m bi) {off : ℕ}
    (hoff : off + efiMemDescSize ≤ bi.memoryMapSize + bi.memoryDescriptorSize)
    (h : bi.memoryMapSize < off + efiMemDescSize) : descsFrom m bi off = [] := by
  have hext := hm.extent
  have hw : u64 (off + efiMemDescSize) = off + efiMemDescSize := u64_of_lt (by omega)
  rw [descsFrom]
  cases bi.memoryMapSize + 1 - off with
  | zero => rfl
  | succ f => rw [descLoop, hw, if_neg (by omega)]

/-- There are never more descriptors than bytes. -/
theorem descLoop_length_le : ∀ (f off : ℕ), (descLoop m bi f off).length ≤ f := by
  intro f
  induction f with
  | zero => intro off; simp [descLoop]
  | succ f ih =>
    intro off
    rw [descLoop]
    split
    · have := ih (u64 (off + bi.memoryDescriptorSize))
      simp only [List.length_cons]
      omega
    · simp

end Walk

/-! ## The walk over the pages of one descriptor -/

/-- The scan can stand at `a` inside a descriptor that ends at `e`. -/
structure RangeOk (a e : ℕ) : Prop where
  low : pmmMinAddr ≤ a
  le : a ≤ e
  alignedAddr : a % pageSize = 0
  alignedEnd : e % pageSize = 0
  lt : e < 2 ^ 64

/-- The scan stands inside a descriptor, or has none. -/
def ScanOk (s : State) : Prop := s.scanAddr = 0 ∨ RangeOk s.scanAddr s.scanEnd

/-- The page the loop looks at next, as the code tests for it. -/
theorem currentPages_of_test {s : State} (hs : RangeOk s.scanAddr s.scanEnd)
    (h : u64 (s.scanAddr + pageSize) ≤ s.scanEnd) :
    currentPages s = s.scanAddr ::
      currentPages { s with scanAddr := u64 (s.scanAddr + pageSize) } := by
  obtain ⟨hlow, hle, ha, he, hlt⟩ := hs
  have hne : s.scanAddr ≠ 0 := by unfold pmmMinAddr at hlow; omega
  by_cases htop : s.scanAddr = topPage
  · -- the sum wraps to zero: the descriptor is used up and ends at the last page boundary
    have hend : s.scanEnd = topPage := by unfold topPage pageSize at *; omega
    have hw : u64 (s.scanAddr + pageSize) = 0 := by rw [htop]; decide
    simp only [currentPages, hne, if_false, hw, if_true, scanPages, hend]
    rw [htop, pageRange_of_lt (by unfold pageSize; omega), List.nil_append]
  · have hlt' : s.scanAddr + pageSize < 2 ^ 64 := by unfold topPage pageSize at *; omega
    rw [u64_of_lt hlt'] at h ⊢
    have hne' : s.scanAddr + pageSize ≠ 0 := by unfold pageSize; omega
    simp only [currentPages, hne, hne', if_false, scanPages]
    rw [pageRange_of_le h, List.cons_append]

/-- When the test fails nothing of the descriptor is left. -/
theorem currentPages_of_not_test {s : State} (hs : RangeOk s.scanAddr s.scanEnd)
    (h : ¬ u64 (s.scanAddr + pageSize) ≤ s.scanEnd) : currentPages s = [] := by
  obtain ⟨hlow, hle, ha, he, hlt⟩ := hs
  have hne : s.scanAddr ≠ 0 := by unfold pmmMinAddr at hlow; omega
  have htop : s.scanAddr ≠ topPage := by
    intro htop
    rw [htop, show u64 (topPage + pageSize) = 0 by decide] at h
    omega
  have hlt' : s.scanAddr + pageSize < 2 ^ 64 := by unfold topPage pageSize at *; omega
  rw [u64_of_lt hlt'] at h
  have hend : s.scanEnd ≠ topPage := by unfold topPage pageSize at *; omega
  simp only [currentPages, hne, if_false, scanPages, hend]
  rw [pageRange_of_lt (by omega), List.nil_append]

/-- One page further the scan is still inside the descriptor, or has finished it. -/
theorem scanOk_advance {s : State} (hs : RangeOk s.scanAddr s.scanEnd)
    (h : u64 (s.scanAddr + pageSize) ≤ s.scanEnd) :
    ScanOk { s with scanAddr := u64 (s.scanAddr + pageSize) } := by
  obtain ⟨hlow, hle, ha, he, hlt⟩ := hs
  by_cases htop : s.scanAddr = topPage
  · left
    simp only [htop]
    decide
  · right
    have hlt' : s.scanAddr + pageSize < 2 ^ 64 := by unfold topPage pageSize at *; omega
    rw [u64_of_lt hlt'] at h ⊢
    refine ⟨?_, h, ?_, he, hlt⟩
    · simp only
      omega
    · simp only
      unfold pageSize at *
      omega

theorem currentPages_length_le {s : State} (hs : ScanOk s) :
    (currentPages s).length ≤ s.scanEnd / pageSize := by
  rcases hs with h0 | ⟨hlow, hle, ha, he, hlt⟩
  · simp [currentPages, h0]
  · have hne : s.scanAddr ≠ 0 := by unfold pmmMinAddr at hlow; omega
    simp only [currentPages, hne, if_false, scanPages, List.length_append, pageRange_length]
    split <;> simp only [List.length_cons, List.length_nil] <;>
      (unfold pmmMinAddr pageSize at *; omega)

section

variable {m : Machine} {fuel : ℕ} {s : State}

/-- A reserved page: the loop passes it. -/
theorem scanRange_skip (ht : s.scanAddr ≠ 0 ∧ u64 (s.scanAddr + pageSize) ≤ s.scanEnd)
    (hres : reserved m s.gBi s.scanAddr = true) :
    scanRange m (fuel + 1) s =
      scanRange m fuel { s with scanAddr := u64 (s.scanAddr + pageSize) } := by
  rw [scanRange, if_pos ht]
  exact if_pos hres

/-- Any other page: the loop ends with it. -/
theorem scanRange_page (ht : s.scanAddr ≠ 0 ∧ u64 (s.scanAddr + pageSize) ≤ s.scanEnd)
    (hres : ¬ reserved m s.gBi s.scanAddr = true) :
    scanRange m (fuel + 1) s = (some s.scanAddr,
      { s with
        scanAddr := u64 (s.scanAddr + pageSize)
        usedPagesCount := u64 (s.usedPagesCount + 1) }) := by
  rw [scanRange, if_pos ht]
  exact if_neg hres

/-- No page left: the loop ends without one. -/
theorem scanRange_stop (ht : ¬ (s.scanAddr ≠ 0 ∧ u64 (s.scanAddr + pageSize) ≤ s.scanEnd)) :
    scanRange m (fuel + 1) s = (none, s) := by
  rw [scanRange, if_neg ht]

end

/-- **The inner loop.**  It hands out the first page of the current descriptor that is not
reserved; if there is none, it leaves nothing of the descriptor. -/
theorem scanRange_spec (m : Machine) : ∀ (fuel : ℕ) (s : State), ScanOk s →
    (currentPages s).length < fuel →
    ((currentPages s).dropWhile (reserved m s.gBi) = [] →
      ∃ a, scanRange m fuel s = (none, { s with scanAddr := a })) ∧
    (∀ p rest, (currentPages s).dropWhile (reserved m s.gBi) = p :: rest →
      ∃ a, scanRange m fuel s =
        (some p, { s with scanAddr := a, usedPagesCount := u64 (s.usedPagesCount + 1) }) ∧
          ScanOk { s with scanAddr := a } ∧ currentPages { s with scanAddr := a } = rest) := by
  intro fuel
  induction fuel with
  | zero => intro s _ h; omega
  | succ fuel ih =>
    intro s hs hfuel
    rcases hs with h0 | hr
    · have hc : currentPages s = [] := by simp [currentPages, h0]
      rw [hc]
      exact ⟨fun _ => ⟨s.scanAddr, scanRange_stop fun h => h.1 h0⟩, fun p rest h => by simp at h⟩
    · have hne : s.scanAddr ≠ 0 := by have := hr.low; unfold pmmMinAddr at this; omega
      by_cases ht : u64 (s.scanAddr + pageSize) ≤ s.scanEnd
      · have hc := currentPages_of_test hr ht
        have hnext := scanOk_advance hr ht
        rw [hc, List.length_cons] at hfuel
        have hih := ih _ hnext (by omega)
        rw [hc, List.dropWhile_cons]
        by_cases hres : reserved m s.gBi s.scanAddr = true
        · rw [if_pos hres, scanRange_skip ⟨hne, ht⟩ hres]
          exact hih
        · rw [if_neg hres]
          refine ⟨fun h => by simp at h, fun p rest h => ?_⟩
          obtain ⟨rfl, rfl⟩ := List.cons.inj h
          exact ⟨u64 (s.scanAddr + pageSize), scanRange_page ⟨hne, ht⟩ hres, hnext, rfl⟩
      · rw [currentPages_of_not_test hr ht]
        exact ⟨fun _ => ⟨s.scanAddr, scanRange_stop fun h => ht h.2⟩, fun p rest h => by simp at h⟩

/-! ## The walk over the whole map -/

section Alloc

variable {m : Machine} {bi : OrionBootInfo}

theorem clampStart_eq (a : ℕ) : clampStart a = max a pmmMinAddr := by
  have : alignUp pmmMinAddr pageSize = pmmMinAddr := by decide
  unfold clampStart
  rw [this]
  split <;> omega

theorem descEnd_eq {d : EfiMemDesc} (h : d.physicalStart + d.pages * pageSize < 2 ^ 64) :
    descEnd d = d.physicalStart + d.pages * pageSize := by
  rw [descEnd, u64_of_lt (show d.pages * pageSize < 2 ^ 64 by omega), u64_of_lt h]

/-- A state whose cursor is where the code can put it. -/
structure CursorOk (m : Machine) (bi : OrionBootInfo) (s : State) : Prop where
  info : s.gBi = some bi
  scan : ScanOk s
  off : s.scanOff + efiMemDescSize ≤ bi.memoryMapSize + bi.memoryDescriptorSize
  suffix : descsFrom m bi s.scanOff <:+ descriptors m bi

/-- A usable descriptor, once loaded, puts the scan inside its range. -/
theorem rangeOk_load (hm : MapOk m bi) {d : EfiMemDesc} (hd : d ∈ descriptors m bi)
    (h7 : d.type = 7) (hlt : clampStart d.physicalStart < descEnd d) :
    RangeOk (clampStart d.physicalStart) (descEnd d) := by
  have ha := hm.aligned d hd h7
  have hw := hm.noWrap d hd h7
  have he := descEnd_eq hw
  have hc := clampStart_eq d.physicalStart
  have hmin : pmmMinAddr % pageSize = 0 := by decide
  refine ⟨by omega, by omega, ?_, ?_, ?_⟩
  · rw [hc]
    rcases Nat.le_total d.physicalStart pmmMinAddr with h | h
    · rw [Nat.max_eq_right h]
      exact hmin
    · rw [Nat.max_eq_left h]
      exact ha
  · rw [he, Nat.add_mul_mod_self_right]
    exact ha
  · rw [he]
    exact hw

/-- Whether the scan skips a descriptor altogether. -/
def skipsDesc (d : EfiMemDesc) : Prop :=
  (d.type ≠ 7 ∨ d.pages = 0) ∨ (descEnd d < d.physicalStart ∨ descEnd d ≤ pmmMinAddr) ∨
    clampStart d.physicalStart ≥ descEnd d

instance (d : EfiMemDesc) : Decidable (skipsDesc d) := by
  unfold skipsDesc
  infer_instance

/-- The state after the scan has moved on to descriptor `d`. -/
def loadDesc (bi : OrionBootInfo) (s : State) (d : EfiMemDesc) : State :=
  { s with
    scanOff := s.scanOff + bi.memoryDescriptorSize
    scanAddr := if skipsDesc d then 0 else clampStart d.physicalStart
    scanEnd := if skipsDesc d then 0 else descEnd d }

theorem descPages_of_skips {d : EfiMemDesc} (h : skipsDesc d) : descPages d = [] := by
  unfold descPages
  split
  · rfl
  · split
    · rfl
    · rw [if_pos (by unfold skipsDesc at h; tauto)]

theorem descPages_of_not_skips {d : EfiMemDesc} (h : ¬ skipsDesc d) :
    descPages d = scanPages (clampStart d.physicalStart) (descEnd d) := by
  simp only [skipsDesc, not_or] at h
  unfold descPages
  rw [if_neg (by tauto), if_neg (by tauto), if_neg (by tauto)]

theorem scanOk_loadDesc (hm : MapOk m bi) (s : State) {d : EfiMemDesc}
    (hd : d ∈ descriptors m bi) : ScanOk (loadDesc bi s d) := by
  by_cases h : skipsDesc d
  · left
    simp [loadDesc, h]
  · right
    have h' := h
    simp only [skipsDesc, not_or, not_not] at h'
    simp only [loadDesc, h, if_false]
    exact rangeOk_load hm hd h'.1.1 (by omega)

theorem currentPages_loadDesc (bi : OrionBootInfo) (s : State) (d : EfiMemDesc) :
    currentPages (loadDesc bi s d) = descPages d := by
  by_cases h : skipsDesc d
  · simp [loadDesc, h, currentPages, descPages_of_skips h]
  · have hne : clampStart d.physicalStart ≠ 0 := by
      rw [clampStart_eq]
      unfold pmmMinAddr
      omega
    simp only [loadDesc, h, if_false, currentPages, hne, descPages_of_not_skips h]

/-- Behind a descriptor the cursor is at the next one. -/
theorem CursorOk.load (hm : MapOk m bi) {s : State} (hs : CursorOk m bi s)
    (hle : s.scanOff + efiMemDescSize ≤ bi.memoryMapSize) :
    CursorOk m bi (loadDesc bi s (descOf m bi s.scanOff)) := by
  have hcons := descsFrom_of_le hm hle
  have hmem : descOf m bi s.scanOff ∈ descriptors m bi :=
    hs.suffix.subset (by rw [hcons]; exact List.mem_cons_self)
  have hsuf : descsFrom m bi (s.scanOff + bi.memoryDescriptorSize) <:+ descriptors m bi :=
    (List.suffix_cons _ _).trans (hcons ▸ hs.suffix)
  exact ⟨hs.info, scanOk_loadDesc hm s hmem, by simp only [loadDesc]; omega, hsuf⟩

/-- One turn of the outer loop that finds a page in the current descriptor. -/
theorem scanLoop_page {fuel p : ℕ} {s t : State}
    (hrun : scanRange m (s.scanEnd / pageSize + 1) s = (some p, t)) :
    scanLoop m bi (fuel + 1) s = (p, t) := by
  rw [scanLoop, hrun]

/-- One turn that finds the current descriptor used up and no other after it. -/
theorem scanLoop_end (hm : MapOk m bi) {fuel a : ℕ} {s : State} (hs : CursorOk m bi s)
    (hrun : scanRange m (s.scanEnd / pageSize + 1) s = (none, { s with scanAddr := a }))
    (hend : bi.memoryMapSize < s.scanOff + efiMemDescSize) :
    scanLoop m bi (fuel + 1) s = (0, { s with scanAddr := 0, scanEnd := 0 }) := by
  have hext := hm.extent
  have hoff := hs.off
  have hw : u64 (s.scanOff + efiMemDescSize) = s.scanOff + efiMemDescSize := u64_of_lt (by omega)
  rw [scanLoop, hrun]
  simp only [hw, gt_iff_lt, hend, if_true]

/-- One turn of the outer loop that finds the current descriptor used up and another one after
it. -/
theorem scanLoop_load (hm : MapOk m bi) {fuel a : ℕ} {s : State}
    (hrun : scanRange m (s.scanEnd / pageSize + 1) s = (none, { s with scanAddr := a }))
    (hle : s.scanOff + efiMemDescSize ≤ bi.memoryMapSize) :
    scanLoop m bi (fuel + 1) s = scanLoop m bi fuel (loadDesc bi s (descOf m bi s.scanOff)) := by
  have hext := hm.extent
  have hw : u64 (s.scanOff + efiMemDescSize) = s.scanOff + efiMemDescSize :=
    u64_of_lt (by omega)
  have hstep : u64 (s.scanOff + bi.memoryDescriptorSize) = s.scanOff + bi.memoryDescriptorSize :=
    u64_of_lt (by unfold efiMemDescSize at *; omega)
  rw [scanLoop, hrun]
  simp only [hw, gt_iff_lt, hstep, if_neg (show ¬ bi.memoryMapSize < s.scanOff + efiMemDescSize
    by omega)]
  generalize descOf m bi s.scanOff = d
  split
  · next h => rw [loadDesc, if_pos (.inl h), if_pos (.inl h)]
  · next h1 =>
    split
    · next h => rw [loadDesc, if_pos (.inr (.inl h)), if_pos (.inr (.inl h))]
    · next h2 =>
      split
      · next h => rw [loadDesc, if_pos (.inr (.inr h)), if_pos (.inr (.inr h))]
      · next h3 =>
        have hno : ¬ skipsDesc d := by
          unfold skipsDesc
          tauto
        rw [loadDesc, if_neg hno, if_neg hno]

/-- Dropping the reserved pages at the front passes over a list that has only such pages. -/
theorem dropWhile_append_of_nil {p : ℕ → Bool} {l₁ : List ℕ} (h : l₁.dropWhile p = [])
    (l₂ : List ℕ) : (l₁ ++ l₂).dropWhile p = l₂.dropWhile p := by
  rw [List.dropWhile_append, h]
  rfl

/-- The result of one scan: the page handed out, the cursor behind it, and the books. -/
structure ScanResult (m : Machine) (bi : OrionBootInfo) (out : ℕ × State) (page : ℕ)
    (rest recycled : List ℕ) (total used : ℕ) : Prop where
  page : out.1 = page
  rest : remaining m bi out.2 = rest
  recycled : out.2.recycled = recycled
  total : out.2.totalPagesCount = total
  used : out.2.usedPagesCount = used
  cursor : CursorOk m bi out.2

/-- **The outer loop.**  It hands out the first page of `remaining` that is not reserved and keeps
the rest; when there is none it returns 0 with nothing remaining. -/
theorem scanLoop_spec (hm : MapOk m bi) : ∀ (fuel : ℕ) (s : State), CursorOk m bi s →
    (descsFrom m bi s.scanOff).length < fuel →
    match (remaining m bi s).dropWhile (reserved m (some bi)) with
    | [] => ScanResult m bi (scanLoop m bi fuel s) 0 [] s.recycled s.totalPagesCount
        s.usedPagesCount
    | p :: rest => ScanResult m bi (scanLoop m bi fuel s) p rest s.recycled s.totalPagesCount
        (u64 (s.usedPagesCount + 1)) := by
  intro fuel
  induction fuel with
  | zero => intro s _ h; omega
  | succ fuel ih =>
    intro s hs hfuel
    obtain ⟨hnone, hsome⟩ := scanRange_spec m (s.scanEnd / pageSize + 1) s hs.scan
      (by have := currentPages_length_le hs.scan; omega)
    have hinfo : reserved m s.gBi = reserved m (some bi) := by rw [hs.info]
    rw [hinfo] at hnone hsome
    cases hcur : (currentPages s).dropWhile (reserved m (some bi)) with
    | cons q qs =>
      -- a page of the current descriptor is handed out
      obtain ⟨a, hrun, hok, hpages⟩ := hsome q qs hcur
      have hdrop : (remaining m bi s).dropWhile (reserved m (some bi))
          = q :: (qs ++ (descsFrom m bi s.scanOff).flatMap descPages) := by
        rw [remaining, List.dropWhile_append, hcur]
        rfl
      rw [hdrop, scanLoop_page hrun]
      refine ⟨rfl, ?_, rfl, rfl, rfl, ⟨hs.info, hok, hs.off, hs.suffix⟩⟩
      rw [remaining, ← hpages]
      rfl
    | nil =>
      -- the current descriptor has nothing to give
      obtain ⟨a, hrun⟩ := hnone hcur
      have hdrop : (remaining m bi s).dropWhile (reserved m (some bi))
          = ((descsFrom m bi s.scanOff).flatMap descPages).dropWhile (reserved m (some bi)) :=
        dropWhile_append_of_nil hcur _
      by_cases hend : bi.memoryMapSize < s.scanOff + efiMemDescSize
      · have hnil := descsFrom_of_gt hm hs.off hend
        rw [hdrop, hnil, scanLoop_end hm hs hrun hend]
        refine ⟨rfl, ?_, rfl, rfl, rfl, ⟨hs.info, .inl rfl, hs.off, hs.suffix⟩⟩
        simp only [remaining, currentPages, if_true, hnil, List.flatMap_nil, List.append_nil]
      · have hle : s.scanOff + efiMemDescSize ≤ bi.memoryMapSize := by omega
        have hcons := descsFrom_of_le hm hle
        have hih := ih _ (hs.load hm hle)
          (by rw [hcons, List.length_cons] at hfuel; exact Nat.lt_of_succ_lt_succ hfuel)
        rw [remaining, currentPages_loadDesc] at hih
        rw [scanLoop_load hm hrun hle, hdrop, hcons, List.flatMap_cons]
        exact hih

end Alloc

end Orion.Pmm
