import Orion.Pmm.Session

/-!
# Memory maps and what is kept out of them

The pages of a map, in order (`mapPages`), and the ranges that are not to be handed out, with their
ends as they are meant (`keptRanges`).  The code sees both through 64 bits: the scan visits exactly the
pages of a map that is clear of the last page boundary (`allPages_eq_mapPages`), and the test for
reserved pages is right on them as far as `ReservedAtTop` and `EmptyApart` say (`reserved_iff`).
-/

namespace Orion.Pmm

/-! ## The pages of a map -/

/-- The pages at or above 16 MiB that lie wholly in a conventional descriptor. -/
def segment (d : EfiMemDesc) : List ℕ :=
  if d.type = 7 then pageRange (max d.physicalStart 0x01000000) (d.physicalStart + d.pages * 4096) else []

/-- In map order. -/
def mapPages (m : Machine) (bi : OrionBootInfo) : List ℕ := (descriptors m bi).flatMap segment

/-- No conventional descriptor ends at the last page boundary of the address space. -/
def ClearOfTop (m : Machine) (bi : OrionBootInfo) : Prop :=
  ∀ d ∈ descriptors m bi, d.type = 7 → d.pages ≠ 0 →
    d.physicalStart + d.pages * 4096 ≠ 0xFFFFFFFFFFFFF000

section

variable {m : Machine} {bi : OrionBootInfo}

/-- In a map clear of the top, the scan visits only pages inside descriptors. -/
theorem descEnd_ne_topPage (hm : MapOk m bi) (htop : ClearOfTop m bi) {d : EfiMemDesc}
    (hd : d ∈ descriptors m bi) (h7 : d.type = 7) (h0 : d.pages ≠ 0) : descEnd d ≠ topPage := by
  rw [descEnd_eq (hm.noWrap d hd h7)]
  exact htop d hd h7 h0

theorem mem_segment {d : EfiMemDesc} {p : ℕ} (h : p ∈ segment d) : d.type = 7 ∧ 0x01000000 ≤ p ∧
    d.physicalStart ≤ p ∧ p + 4096 ≤ d.physicalStart + d.pages * 4096 := by
  unfold segment at h
  split at h
  · next h7 =>
    obtain ⟨hlow, hhigh, -⟩ := mem_pageRange.mp h
    unfold pageSize at hhigh
    exact ⟨h7, by omega, by omega, hhigh⟩
  · simp at h

/-- In a map clear of the top the scan visits the pages of the map. -/
theorem descPages_eq_segment (hm : MapOk m bi) (htop : ClearOfTop m bi) {d : EfiMemDesc}
    (hd : d ∈ descriptors m bi) : descPages d = segment d := by
  unfold segment
  by_cases h7 : d.type = 7
  swap
  · rw [if_neg h7, descPages_of_skips (.inl (.inl h7))]
  have hw := hm.noWrap d hd h7
  have hend := descEnd_eq hw
  have hclamp := clampStart_eq d.physicalStart
  have hmin : pmmMinAddr = 0x01000000 := rfl
  have hpage : pageSize = 4096 := rfl
  rw [if_pos h7]
  by_cases hs : skipsDesc d
  · rw [descPages_of_skips hs, pageRange_of_lt]
    rcases hs with (hs | hs) | (hs | hs) | hs
    · exact absurd h7 hs
    all_goals
      rw [hpage] at hend ⊢
      omega
  · have h0 : d.pages ≠ 0 := by
      intro h0
      exact hs (.inl (.inr h0))
    rw [descPages_of_not_skips hs, scanPages, if_neg (descEnd_ne_topPage hm htop hd h7 h0), hclamp, hend,
      List.append_nil]
    rfl

theorem allPages_eq_mapPages (hm : MapOk m bi) (htop : ClearOfTop m bi) :
    allPages m bi = mapPages m bi :=
  List.flatMap_congr fun _ hd => descPages_eq_segment hm htop hd

theorem mem_mapPages (hm : MapOk m bi) {p : ℕ} : p ∈ mapPages m bi ↔ p % 4096 = 0 ∧ 0x01000000 ≤ p ∧
    ∃ d ∈ descriptors m bi, d.type = 7 ∧ d.physicalStart ≤ p ∧
      p + 4096 ≤ d.physicalStart + d.pages * 4096 := by
  rw [mapPages, List.mem_flatMap]
  have hmem : ∀ d ∈ descriptors m bi, d.type = 7 → (p ∈ segment d ↔ p % 4096 = 0 ∧ 0x01000000 ≤ p ∧
      d.physicalStart ≤ p ∧ p + 4096 ≤ d.physicalStart + d.pages * 4096) := by
    intro d hd h7
    have hal := hm.aligned d hd h7
    rw [segment, if_pos h7, mem_pageRange]
    unfold pageSize at *
    omega
  constructor
  · rintro ⟨d, hd, hp⟩
    have h7 := (mem_segment hp).1
    obtain ⟨hal, hlow, hstart, hend⟩ := (hmem d hd h7).mp hp
    exact ⟨hal, hlow, d, hd, h7, hstart, hend⟩
  · rintro ⟨hal, hlow, d, hd, h7, hstart, hend⟩
    exact ⟨d, hd, (hmem d hd h7).mpr ⟨hal, hlow, hstart, hend⟩⟩

theorem mapPages_lt (hm : MapOk m bi) {p : ℕ} (hp : p ∈ mapPages m bi) : p + 4096 < 2 ^ 64 := by
  obtain ⟨-, -, d, hd, h7, -, hend⟩ := (mem_mapPages hm).mp hp
  have := hm.noWrap d hd h7
  unfold pageSize at this
  omega

theorem mapPages_nodup (hm : MapOk m bi) : (mapPages m bi).Nodup := by
  rw [mapPages, List.nodup_flatMap]
  constructor
  · intro d _
    unfold segment
    split
    · exact pageRange_nodup _ _
    · exact List.nodup_nil
  · refine hm.disjoint.imp fun {d e} hdis p hp hq => ?_
    obtain ⟨hd7, -, hd1, hd2⟩ := mem_segment hp
    obtain ⟨he7, -, he1, he2⟩ := mem_segment hq
    unfold pageSize at hdis
    exact hdis hd7 he7 p ⟨⟨hd1, by omega⟩, he1, by omega⟩

end

/-! ## The reserved ranges -/

/-- The kernel image, the boot information, the memory map and the framebuffer, as ranges
`[start, end)` of addresses. -/
def keptRanges (m : Machine) (bi : OrionBootInfo) : List (ℕ × ℕ) :=
  [(m.kernelStart, m.kernelEnd), (bi.address, bi.address + m.bootInfoSize),
    (bi.memoryMap, bi.memoryMap + bi.memoryMapSize),
    (bi.framebufferBase, bi.framebufferBase + bi.framebufferSize)]

/-- The page shares an address with a reserved range. -/
def OverlapsReserved (m : Machine) (bi : OrionBootInfo) (p : ℕ) : Prop :=
  ∃ r ∈ keptRanges m bi, ∃ a, (p ≤ a ∧ a < p + 4096) ∧ r.1 ≤ a ∧ a < r.2

/-- Every page of the map that meets a reserved range that reaches `2^64` passes for reserved all the
same. -/
def ReservedAtTop (m : Machine) (bi : OrionBootInfo) : Prop :=
  ∀ p ∈ mapPages m bi, ∀ r ∈ keptRanges m bi, 2 ^ 64 ≤ r.2 → r.1 < p + 4096 →
    reserved m (some bi) p = true

/-- Where an empty reserved range lies inside a page of the map, another reserved range meets the
page. -/
def EmptyApart (m : Machine) (bi : OrionBootInfo) : Prop :=
  ∀ p ∈ mapPages m bi, ∀ r ∈ keptRanges m bi, r.2 ≤ r.1 → p < r.2 → r.1 < p + 4096 →
    OverlapsReserved m bi p

section

variable {m : Machine} {bi : OrionBootInfo} {p : ℕ}

theorem overlapsReserved_iff : OverlapsReserved m bi p ↔
    ∃ r ∈ keptRanges m bi, r.1 < r.2 ∧ p < r.2 ∧ r.1 < p + 4096 := by
  constructor
  · rintro ⟨r, hr, a, ⟨hpa, hap⟩, hra, har⟩
    exact ⟨r, hr, by omega, by omega, by omega⟩
  · rintro ⟨r, hr, h1, h2, h3⟩
    exact ⟨r, hr, max p r.1, by omega, by omega, by omega⟩

instance (m : Machine) (bi : OrionBootInfo) (p : ℕ) : Decidable (OverlapsReserved m bi p) :=
  decidable_of_iff _ overlapsReserved_iff.symm

/-- The ends that the code computes are the ends of the ranges, up to `2^64`. -/
theorem mem_reservedRanges {r : ℕ × ℕ} (hr : r ∈ keptRanges m bi) (h : r.2 < 2 ^ 64) :
    r ∈ reservedRanges m (some bi) := by
  simp only [keptRanges, List.mem_cons, List.not_mem_nil, or_false] at hr
  simp only [reservedRanges, List.mem_cons, List.not_mem_nil, or_false]
  rcases hr with rfl | rfl | rfl | rfl
  · exact .inl rfl
  · exact .inr (.inl (by rw [u64_of_lt h]))
  · exact .inr (.inr (.inl (by rw [u64_of_lt h])))
  · exact .inr (.inr (.inr (by rw [u64_of_lt h])))

/-- Each of the ranges that the code tests starts where a reserved range does, and ends there or
before it. -/
theorem keptRange_of_reservedRange {r : ℕ × ℕ} (hr : r ∈ reservedRanges m (some bi)) :
    ∃ k ∈ keptRanges m bi, k.1 = r.1 ∧ r.2 ≤ k.2 := by
  have hle : ∀ n, u64 n ≤ n := fun n => Nat.mod_le n _
  simp only [reservedRanges, List.mem_cons, List.not_mem_nil, or_false] at hr
  unfold keptRanges
  rcases hr with rfl | rfl | rfl | rfl
  · exact ⟨(m.kernelStart, m.kernelEnd), by simp, rfl, le_rfl⟩
  · exact ⟨(bi.address, bi.address + m.bootInfoSize), by simp, rfl, hle _⟩
  · exact ⟨(bi.memoryMap, bi.memoryMap + bi.memoryMapSize), by simp, rfl, hle _⟩
  · exact ⟨(bi.framebufferBase, bi.framebufferBase + bi.framebufferSize), by simp, rfl, hle _⟩

/-- The page test of the code, on a page below the top. -/
theorem reserved_eq_true_iff (hp : p + 4096 < 2 ^ 64) : reserved m (some bi) p = true ↔
    ∃ r ∈ reservedRanges m (some bi), p < r.2 ∧ r.1 < p + 4096 := by
  have hw : u64 (p + pageSize) = p + 4096 := u64_of_lt hp
  unfold reserved overlap
  rw [hw, List.any_eq_true]
  simp

/-- **A page that shares an address with a reserved range passes for reserved**, if the ranges that
reach `2^64` do not hide it. -/
theorem ReservedAtTop.reserved (hm : MapOk m bi) (h : ReservedAtTop m bi) (hp : p ∈ mapPages m bi)
    (hover : OverlapsReserved m bi p) : reserved m (some bi) p = true := by
  obtain ⟨r, hr, -, hpr, hrp⟩ := overlapsReserved_iff.mp hover
  by_cases htop : 2 ^ 64 ≤ r.2
  · exact h p hp r hr htop hrp
  · exact (reserved_eq_true_iff (mapPages_lt hm hp)).mpr
      ⟨r, mem_reservedRanges hr (by omega), hpr, hrp⟩

/-- **A page that passes for reserved shares an address with a reserved range**, empty ranges apart. -/
theorem EmptyApart.overlaps (hm : MapOk m bi) (h : EmptyApart m bi) (hp : p ∈ mapPages m bi)
    (hres : reserved m (some bi) p = true) : OverlapsReserved m bi p := by
  obtain ⟨r, hr, hpr, hrp⟩ := (reserved_eq_true_iff (mapPages_lt hm hp)).mp hres
  obtain ⟨k, hk, hstart, hend⟩ := keptRange_of_reservedRange hr
  by_cases hempty : k.2 ≤ k.1
  · exact h p hp k hk hempty (by omega) (by omega)
  · exact overlapsReserved_iff.mpr ⟨k, hk, by omega, by omega, by omega⟩

theorem reserved_iff (hm : MapOk m bi) (htop : ReservedAtTop m bi) (hempty : EmptyApart m bi)
    (hp : p ∈ mapPages m bi) : reserved m (some bi) p = true ↔ OverlapsReserved m bi p :=
  ⟨hempty.overlaps hm hp, htop.reserved hm hp⟩

/-- A page of the map that meets a reserved range that reaches `2^64` shares an address with it. -/
theorem overlapsReserved_of_top (hm : MapOk m bi) (hp : p ∈ mapPages m bi) {r : ℕ × ℕ}
    (hr : r ∈ keptRanges m bi) (htop : 2 ^ 64 ≤ r.2) (hrp : r.1 < p + 4096) :
    OverlapsReserved m bi p := by
  have hlt := mapPages_lt hm hp
  exact overlapsReserved_iff.mpr ⟨r, hr, by omega, by omega, hrp⟩

/-- If no reserved range that meets the map reaches `2^64`, the ranges hide nothing. -/
theorem reservedAtTop_of_below (h : ∀ r ∈ keptRanges m bi, 2 ^ 64 ≤ r.2 →
    ∀ p ∈ mapPages m bi, p + 4096 ≤ r.1) : ReservedAtTop m bi := by
  intro p hp r hr htop hrp
  have := h r hr htop p hp
  omega

end

end Orion.Pmm
