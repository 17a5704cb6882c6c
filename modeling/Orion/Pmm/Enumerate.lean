import Mathlib.Data.List.GetD
import Orion.Pmm.Safety

/-!
# All of memory is handed out

Repeated calls of `pmm_alloc_page` after `pmm_init` enumerate the pages of the memory map: in map
order and by increasing address, without the reserved ones (`usablePages`), and then nothing any more.
This holds for exactly the maps that are clear of the last page boundary and whose reserved ranges
the code sees as they are (`pmm_hands_out_all_iff`).
-/

namespace Orion.Pmm

def usablePages (m : Machine) (bi : OrionBootInfo) : List ℕ :=
  (mapPages m bi).filter fun p => ¬ OverlapsReserved m bi p

def reservedPages (m : Machine) (bi : OrionBootInfo) : List ℕ :=
  (mapPages m bi).filter fun p => OverlapsReserved m bi p

/-! ## Turns of the loops -/

/-- One test of the loops of `pmm_alloc_page`, and what follows it: a result, or another turn. -/
def allocTurn (m : Machine) (bi : OrionBootInfo) (s : State) : (ℕ × State) ⊕ State :=
  if s.scanAddr ≠ 0 ∧ u64 (s.scanAddr + pageSize) ≤ s.scanEnd then
    let p := s.scanAddr
    let s := { s with scanAddr := u64 (p + pageSize) }
    if reserved m s.gBi p then .inr s
    else .inl (p, { s with usedPagesCount := u64 (s.usedPagesCount + 1) })
  else
    let s := { s with scanAddr := 0, scanEnd := 0 }
    if u64 (s.scanOff + efiMemDescSize) > bi.memoryMapSize then .inl (0, s)
    else
      let d := descOf m bi s.scanOff
      let s := { s with scanOff := u64 (s.scanOff + bi.memoryDescriptorSize) }
      if d.type ≠ 7 ∨ d.pages = 0 then .inr s
      else if descEnd d < d.physicalStart ∨ descEnd d ≤ pmmMinAddr then .inr s
      else if clampStart d.physicalStart ≥ descEnd d then .inr s
      else .inr { s with scanAddr := clampStart d.physicalStart, scanEnd := descEnd d }

/-- After finitely many turns from `s` the loops end with `r`. -/
inductive Halts (m : Machine) (bi : OrionBootInfo) : State → ℕ × State → Prop
  | done {s : State} {r : ℕ × State} (h : allocTurn m bi s = .inl r) : Halts m bi s r
  | turn {s t : State} {r : ℕ × State} (h : allocTurn m bi s = .inr t) (ht : Halts m bi t r) :
      Halts m bi s r

section

variable {m : Machine} {bi : OrionBootInfo}

section

variable {s : State}

/-- A reserved page is passed. -/
theorem allocTurn_skip (ht : s.scanAddr ≠ 0 ∧ u64 (s.scanAddr + pageSize) ≤ s.scanEnd)
    (hres : reserved m s.gBi s.scanAddr = true) :
    allocTurn m bi s = .inr { s with scanAddr := u64 (s.scanAddr + pageSize) } := by
  rw [allocTurn, if_pos ht]
  exact if_pos hres

/-- Any other page is the result. -/
theorem allocTurn_page (ht : s.scanAddr ≠ 0 ∧ u64 (s.scanAddr + pageSize) ≤ s.scanEnd)
    (hres : ¬ reserved m s.gBi s.scanAddr = true) :
    allocTurn m bi s = .inl (s.scanAddr,
      { s with
        scanAddr := u64 (s.scanAddr + pageSize)
        usedPagesCount := u64 (s.usedPagesCount + 1) }) := by
  rw [allocTurn, if_pos ht]
  exact if_neg hres

/-- No page and no descriptor is left. -/
theorem allocTurn_end (hm : MapOk m bi)
    (hoff : s.scanOff + efiMemDescSize ≤ bi.memoryMapSize + bi.memoryDescriptorSize)
    (ht : ¬ (s.scanAddr ≠ 0 ∧ u64 (s.scanAddr + pageSize) ≤ s.scanEnd))
    (hend : bi.memoryMapSize < s.scanOff + efiMemDescSize) :
    allocTurn m bi s = .inl (0, { s with scanAddr := 0, scanEnd := 0 }) := by
  have hext := hm.extent
  have hw : u64 (s.scanOff + efiMemDescSize) = s.scanOff + efiMemDescSize := u64_of_lt (by omega)
  rw [allocTurn, if_neg ht]
  simp only [hw, gt_iff_lt, hend, if_true]

/-- No page is left here, but another descriptor. -/
theorem allocTurn_load (hm : MapOk m bi)
    (ht : ¬ (s.scanAddr ≠ 0 ∧ u64 (s.scanAddr + pageSize) ≤ s.scanEnd))
    (hle : s.scanOff + efiMemDescSize ≤ bi.memoryMapSize) :
    allocTurn m bi s = .inr (loadDesc bi s (descOf m bi s.scanOff)) := by
  have hext := hm.extent
  have hw : u64 (s.scanOff + efiMemDescSize) = s.scanOff + efiMemDescSize := u64_of_lt (by omega)
  have hstep : u64 (s.scanOff + bi.memoryDescriptorSize) = s.scanOff + bi.memoryDescriptorSize :=
    u64_of_lt (by unfold efiMemDescSize at *; omega)
  have hend : ¬ bi.memoryMapSize < s.scanOff + efiMemDescSize := by omega
  rw [allocTurn, if_neg ht]
  simp only [hw, gt_iff_lt, hend, if_false, hstep]
  generalize descOf m bi s.scanOff = d
  unfold loadDesc skipsDesc
  split
  · next h => simp [h]
  split
  · next h => simp [h]
  split
  · next h => simp [h]
  · next h1 h2 h3 => simp only [h1, h2, h3, or_self, if_false]

end

/-- The inner loop in turns: it ends with a page, or where its test fails. -/
theorem scanRange_halts : ∀ (fuel : ℕ) (s : State), ScanOk s → (currentPages s).length < fuel →
    (∀ p t, scanRange m fuel s = (some p, t) → Halts m bi s (p, t)) ∧
    (∀ t, scanRange m fuel s = (none, t) →
      ¬ (t.scanAddr ≠ 0 ∧ u64 (t.scanAddr + pageSize) ≤ t.scanEnd) ∧
        ∀ r, Halts m bi t r → Halts m bi s r) := by
  intro fuel
  induction fuel with
  | zero =>
    intro s _ hfuel
    omega
  | succ fuel ih =>
    intro s hs hfuel
    by_cases htest : s.scanAddr ≠ 0 ∧ u64 (s.scanAddr + pageSize) ≤ s.scanEnd
    · have hr : RangeOk s.scanAddr s.scanEnd := hs.resolve_left htest.1
      have hpages := currentPages_of_test hr htest.2
      rw [hpages, List.length_cons] at hfuel
      by_cases hres : reserved m s.gBi s.scanAddr = true
      · have hturn := @allocTurn_skip m bi s htest hres
        obtain ⟨hpage, hnone⟩ := ih _ (scanOk_advance hr htest.2) (by omega)
        rw [scanRange_skip htest hres]
        refine ⟨fun p t h => .turn hturn (hpage p t h), fun t h => ⟨(hnone t h).1, fun r hr => ?_⟩⟩
        exact .turn hturn ((hnone t h).2 r hr)
      · rw [scanRange_page htest hres]
        refine ⟨fun p t h => ?_, fun t h => by simp at h⟩
        obtain ⟨hp, rfl⟩ := Prod.mk.inj h
        obtain rfl := Option.some.inj hp
        exact .done (allocTurn_page htest hres)
    · rw [scanRange_stop htest]
      refine ⟨fun p t h => by simp at h, fun t h => ?_⟩
      obtain ⟨-, rfl⟩ := Prod.mk.inj h
      exact ⟨htest, fun r hr => hr⟩

/-- **Each call terminates**: the loops end after finitely many turns, with the result of the model. -/
theorem scanLoop_halts (hm : MapOk m bi) : ∀ (fuel : ℕ) (s : State), CursorOk m bi s →
    (descsFrom m bi s.scanOff).length < fuel → Halts m bi s (scanLoop m bi fuel s) := by
  intro fuel
  induction fuel with
  | zero =>
    intro s _ hfuel
    omega
  | succ fuel ih =>
    intro s hs hfuel
    have hlen := currentPages_length_le hs.scan
    obtain ⟨hpage, hnone⟩ := @scanRange_halts m bi (s.scanEnd / pageSize + 1) s hs.scan
      (by omega)
    obtain ⟨hsome', hnone'⟩ := scanRange_spec m (s.scanEnd / pageSize + 1) s hs.scan (by omega)
    cases hcur : (currentPages s).dropWhile (reserved m s.gBi) with
    | cons q qs =>
      obtain ⟨a, hrun, -⟩ := hnone' q qs hcur
      rw [scanLoop_page hrun]
      exact hpage _ _ hrun
    | nil =>
      obtain ⟨a, hrun⟩ := hsome' hcur
      obtain ⟨htest, hback⟩ := hnone _ hrun
      refine hback _ ?_
      by_cases hend : bi.memoryMapSize < s.scanOff + efiMemDescSize
      · rw [scanLoop_end hm hs hrun hend]
        exact .done (allocTurn_end hm hs.off htest hend)
      · have hle : s.scanOff + efiMemDescSize ≤ bi.memoryMapSize := by omega
        have hih := ih _ (hs.load hm hle)
          (by rw [descsFrom_of_le hm hle, List.length_cons] at hfuel; exact Nat.lt_of_succ_lt_succ hfuel)
        rw [scanLoop_load hm hrun hle]
        exact .turn (allocTurn_load hm htest hle) hih

/-- The state in which nothing is left. -/
structure Exhausted (bi : OrionBootInfo) (s : State) : Prop where
  scanAddr : s.scanAddr = 0
  scanEnd : s.scanEnd = 0
  scanOff : u64 (s.scanOff + efiMemDescSize) > bi.memoryMapSize

theorem Halts.exhausted {s : State} {r : ℕ × State} (h : Halts m bi s r) (h0 : r.1 = 0) :
    Exhausted bi r.2 := by
  induction h with
  | @done s r h =>
    unfold allocTurn at h
    split at h
    · next htest =>
      simp only at h
      split at h
      · simp at h
      · obtain rfl := Sum.inl.inj h
        exact absurd h0 htest.1
    · simp only at h
      split at h
      · next hend =>
        obtain rfl := Sum.inl.inj h
        exact ⟨rfl, rfl, hend⟩
      · split at h
        · simp at h
        split at h
        · simp at h
        split at h <;> simp at h
  | turn h ht ih => exact ih h0

/-- A call then returns 0 and changes nothing. -/
theorem scanLoop_exhausted {fuel : ℕ} {s : State} (h : Exhausted bi s) :
    scanLoop m bi (fuel + 1) s = (0, s) := by
  have hrun : scanRange m (s.scanEnd / pageSize + 1) s = (none, s) := by
    rw [scanRange, if_neg (by simp [h.scanAddr])]
  have hs : { s with scanAddr := 0, scanEnd := 0 } = s := by
    obtain ⟨haddr, hend, -⟩ := h
    cases s
    simp only at haddr hend
    rw [haddr, hend]
  rw [scanLoop, hrun]
  simp only [hs]
  exact if_pos h.scanOff

/-! ## Repeated calls -/

/-- The state after `n` calls. -/
def afterAllocs (m : Machine) : ℕ → State → State
  | 0, s => s
  | n + 1, s => afterAllocs m n (pmmAllocPage m s).2

theorem afterAllocs_succ : ∀ (n : ℕ) (s : State),
    afterAllocs m (n + 1) s = (pmmAllocPage m (afterAllocs m n s)).2 := by
  intro n
  induction n with
  | zero =>
    intro s
    rfl
  | succ n ih =>
    intro s
    exact ih _

/-- Nothing has come back, and the cursor is in order. -/
structure Walking (m : Machine) (bi : OrionBootInfo) (s : State) : Prop where
  cursor : CursorOk m bi s
  recycled : s.recycled = []

theorem walking_init (hm : MapOk m bi) : Walking m bi (pmmInit m (some bi)) := by
  have hstart := sessionOk_start hm
  exact ⟨hstart.cursor, by rw [show pmmInit m (some bi) = (Session.start m bi).pmm from rfl, start_pmm hm]⟩

theorem remaining_init (hm : MapOk m bi) : remaining m bi (pmmInit m (some bi)) = allPages m bi :=
  congrArg Pool.fresh (pool_start hm)

theorem Walking.alloc_eq (hm : MapOk m bi) {s : State} (h : Walking m bi s) :
    pmmAllocPage m s = scanLoop m bi (bi.memoryMapSize + 2) s := by
  unfold pmmAllocPage
  rw [h.recycled, h.cursor.info]
  exact if_neg hm.descSize_ne_zero

theorem Walking.fuel {s : State} : (descsFrom m bi s.scanOff).length < bi.memoryMapSize + 2 := by
  have hlen := @descLoop_length_le m bi (bi.memoryMapSize + 1 - s.scanOff) s.scanOff
  rw [descsFrom]
  omega

theorem Walking.halts (hm : MapOk m bi) {s : State} (h : Walking m bi s) :
    Halts m bi s (pmmAllocPage m s) := by
  rw [h.alloc_eq hm]
  exact scanLoop_halts hm _ s h.cursor Walking.fuel

/-- The pages that the calls will return. -/
def ahead (m : Machine) (bi : OrionBootInfo) (s : State) : List ℕ :=
  (remaining m bi s).filter fun p => ! reserved m (some bi) p

/-- **One call** returns the first of the pages ahead, or 0. -/
theorem Walking.alloc (hm : MapOk m bi) {s : State} (h : Walking m bi s) :
    (pmmAllocPage m s).1 = (ahead m bi s).headD 0 ∧ Walking m bi (pmmAllocPage m s).2 ∧
      ahead m bi (pmmAllocPage m s).2 = (ahead m bi s).tail := by
  have hspec := scanLoop_spec hm (bi.memoryMapSize + 2) s h.cursor Walking.fuel
  rw [← h.alloc_eq hm] at hspec
  have hahead : ahead m bi s =
      ((remaining m bi s).dropWhile (reserved m (some bi))).filter fun p => ! reserved m (some bi) p := by
    rw [ahead]
    conv_lhs => rw [← List.takeWhile_append_dropWhile (p := reserved m (some bi)) (l := remaining m bi s)]
    rw [List.filter_append, List.filter_eq_nil_iff.mpr, List.nil_append]
    intro p hp
    simp [List.mem_takeWhile_imp hp]
  cases hdrop : (remaining m bi s).dropWhile (reserved m (some bi)) with
  | nil =>
    rw [hdrop] at hspec hahead
    simp only at hspec
    rw [hahead]
    exact ⟨hspec.page, ⟨hspec.cursor, hspec.recycled.trans h.recycled⟩, by rw [ahead, hspec.rest]; rfl⟩
  | cons p rest =>
    rw [hdrop] at hspec hahead
    simp only at hspec
    have hp : reserved m (some bi) p = false := by
      have hhead := List.head?_dropWhile_not (reserved m (some bi)) (remaining m bi s)
      rw [hdrop] at hhead
      exact hhead
    rw [List.filter_cons_of_pos (by simp [hp])] at hahead
    rw [hahead]
    exact ⟨hspec.page, ⟨hspec.cursor, hspec.recycled.trans h.recycled⟩, by rw [ahead, hspec.rest]; rfl⟩

/-- **The calls enumerate the pages ahead.** -/
theorem Walking.allocs (hm : MapOk m bi) : ∀ (n : ℕ) {s : State}, Walking m bi s →
    Walking m bi (afterAllocs m n s) ∧
      (pmmAllocPage m (afterAllocs m n s)).1 = (ahead m bi s).getD n 0 := by
  intro n
  induction n with
  | zero =>
    intro s h
    refine ⟨h, (h.alloc hm).1.trans ?_⟩
    cases ahead m bi s <;> rfl
  | succ n ih =>
    intro s h
    obtain ⟨-, hnext, htail⟩ := h.alloc hm
    obtain ⟨hwalk, hpage⟩ := ih hnext
    refine ⟨hwalk, hpage.trans ?_⟩
    rw [htail]
    cases ahead m bi s with
    | nil => rfl
    | cons p rest => rfl

/-- Behind the last page the state stays. -/
theorem Walking.stays (hm : MapOk m bi) {s : State} (h : Walking m bi s) {n : ℕ}
    (hn : (ahead m bi s).length < n) :
    (pmmAllocPage m (afterAllocs m n s)).2 = afterAllocs m n s := by
  obtain ⟨k, rfl⟩ : ∃ k, n = k + 1 := ⟨n - 1, by omega⟩
  obtain ⟨hwalk, hpage⟩ := h.allocs hm k
  have hzero : (pmmAllocPage m (afterAllocs m k s)).1 = 0 := by
    rw [hpage, List.getD_eq_default _ _ (by omega)]
  have hend := (hwalk.halts hm).exhausted hzero
  rw [← afterAllocs_succ] at hend
  rw [(h.allocs hm (k + 1)).1.alloc_eq hm, scanLoop_exhausted hend]

/-! ## The map against the scan -/

/-- In a map clear of the top the calls return the pages that do not pass for reserved. -/
theorem ahead_init (hm : MapOk m bi) (htop : ClearOfTop m bi) :
    ahead m bi (pmmInit m (some bi)) = (mapPages m bi).filter fun p => ! reserved m (some bi) p := by
  rw [ahead, remaining_init hm, allPages_eq_mapPages hm htop]

/-- These are the usable pages, if the test for reserved pages is right on the map. -/
theorem ahead_eq_usablePages (hm : MapOk m bi) (htop : ClearOfTop m bi)
    (hres : ∀ p ∈ mapPages m bi, (reserved m (some bi) p = true ↔ OverlapsReserved m bi p)) :
    ahead m bi (pmmInit m (some bi)) = usablePages m bi := by
  rw [ahead_init hm htop, usablePages]
  refine List.filter_congr fun p hp => ?_
  rw [Bool.eq_iff_iff, Bool.not_eq_true', decide_eq_true_eq, ← hres p hp, Bool.not_eq_true]

/-- Lists without zeros that agree wherever they are read are equal. -/
theorem eq_of_getD : ∀ {l l' : List ℕ}, 0 ∉ l → 0 ∉ l' → (∀ n, l.getD n 0 = l'.getD n 0) → l = l'
  | [], [], _, _, _ => rfl
  | [], b :: _, _, hb, h => by
    have hhead : 0 = b := h 0
    exact absurd (List.mem_cons.mpr (.inl hhead)) hb
  | a :: _, [], ha, _, h => by
    have hhead : a = 0 := h 0
    exact absurd (List.mem_cons.mpr (.inl hhead.symm)) ha
  | a :: l, b :: l', ha, hb, h => by
    have hhead : a = b := h 0
    have htail : l = l' := eq_of_getD (fun h0 => ha (List.mem_cons_of_mem a h0))
      (fun h0 => hb (List.mem_cons_of_mem b h0)) fun n => h (n + 1)
    rw [hhead, htail]

/-! ## The enumeration -/

/-- What repeated calls without frees owe: each call terminates, the `n`-th returns the `n`-th usable
page and 0 behind the last; once 0 has been returned the state stays; and the total counts the usable
pages and the reserved ones. -/
structure HandsOutAll (m : Machine) (bi : OrionBootInfo) : Prop where
  halts : ∀ n, Halts m bi (afterAllocs m n (pmmInit m (some bi)))
    (pmmAllocPage m (afterAllocs m n (pmmInit m (some bi))))
  pages : ∀ n, (pmmAllocPage m (afterAllocs m n (pmmInit m (some bi)))).1 = (usablePages m bi).getD n 0
  stays : ∀ n, (usablePages m bi).length < n →
    (pmmAllocPage m (afterAllocs m n (pmmInit m (some bi)))).2 = afterAllocs m n (pmmInit m (some bi))
  total : pmmTotalPages (pmmInit m (some bi)) = (usablePages m bi).length + (reservedPages m bi).length

theorem length_mapPages : (mapPages m bi).length =
    (usablePages m bi).length + (reservedPages m bi).length := by
  rw [usablePages, reservedPages, List.length_eq_length_filter_add fun p => decide (¬ OverlapsReserved m bi p)]
  congr 2
  refine List.filter_congr fun p _ => ?_
  simp

theorem handsOutAll_of_clear (hm : MapOk m bi) (htop : ClearOfTop m bi) (hat : ReservedAtTop m bi)
    (hempty : EmptyApart m bi) : HandsOutAll m bi := by
  have hwalk := walking_init hm
  have hahead := ahead_eq_usablePages hm htop fun p hp => reserved_iff hm hat hempty hp
  refine ⟨fun n => (hwalk.allocs hm n).1.halts hm, fun n => ?_, fun n hn => ?_, ?_⟩
  · rw [(hwalk.allocs hm n).2, hahead]
  · exact hwalk.stays hm (hahead.symm ▸ hn)
  · have htotal := total_eq_allPages hm htop
    rw [allPages_eq_mapPages hm htop, length_mapPages] at htotal
    exact htotal

/-- The calls return the pages ahead, so these are the usable ones if all of memory is handed out. -/
theorem HandsOutAll.ahead_eq (hm : MapOk m bi) (h : HandsOutAll m bi) :
    ahead m bi (pmmInit m (some bi)) = usablePages m bi := by
  have hnot : ∀ {p}, p ∈ allPages m bi → p ≠ 0 := fun hp h0 => by
    have hlow := (mem_allPages_bounds hm hp).1
    have hmin : pmmMinAddr = 0x01000000 := rfl
    omega
  refine eq_of_getD (fun h0 => ?_) (fun h0 => ?_) fun n => ?_
  · have hmem := (List.mem_filter.mp h0).1
    rw [remaining_init hm] at hmem
    exact hnot hmem rfl
  · have hlow := ((mem_mapPages hm).mp (List.mem_filter.mp h0).1).2.1
    omega
  · exact ((walking_init hm).allocs hm n).2.symm.trans (h.pages n)

theorem HandsOutAll.clearOfTop (hm : MapOk m bi) (h : HandsOutAll m bi) : ClearOfTop m bi := by
  -- the scan goes on to the page behind a descriptor that ends at the top
  intro d hd h7 h0 hend
  have hmem : topPage ∈ ahead m bi (pmmInit m (some bi)) := by
    rw [ahead, remaining_init hm]
    exact List.mem_filter.mpr ⟨topPage_mem_allPages hm hd h7 h0 hend, by
      rw [topPage_not_reserved]
      rfl⟩
  rw [h.ahead_eq hm] at hmem
  have hbound := mapPages_lt hm (List.mem_filter.mp hmem).1
  unfold topPage at hbound
  omega

/-- Then the test for reserved pages is right on the map. -/
theorem HandsOutAll.reserved_iff (hm : MapOk m bi) (h : HandsOutAll m bi) {p : ℕ}
    (hp : p ∈ mapPages m bi) : reserved m (some bi) p = true ↔ OverlapsReserved m bi p := by
  have hlists := (ahead_init hm (h.clearOfTop hm)).symm.trans (h.ahead_eq hm)
  have hmem : (p ∈ (mapPages m bi).filter fun p => ! reserved m (some bi) p) ↔ p ∈ usablePages m bi := by
    rw [hlists]
  rw [usablePages, List.mem_filter, List.mem_filter] at hmem
  simpa [hp] using not_congr hmem

/-- **The allocator hands out all of memory**, in maps whose conventional descriptors are aligned,
disjoint and do not wrap, if and only if none of these descriptors ends at the last page boundary, the
pages that meet a reserved range that reaches `2^64` pass for reserved all the same, and an empty
reserved range lies in no page of the map that no other one meets; the usable pages are the unreserved
ones at or above 16 MiB inside these descriptors, each once. -/
theorem pmm_hands_out_all_iff (m : Machine) (bi : OrionBootInfo) (hm : MapOk m bi) :
    (HandsOutAll m bi ↔ ClearOfTop m bi ∧ ReservedAtTop m bi ∧ EmptyApart m bi) ∧
      (usablePages m bi).Nodup ∧
      ∀ p, p ∈ usablePages m bi ↔ (p % 4096 = 0 ∧ 0x01000000 ≤ p ∧
        ∃ d ∈ descriptors m bi, d.type = 7 ∧ d.physicalStart ≤ p ∧
          p + 4096 ≤ d.physicalStart + d.pages * 4096) ∧ ¬ OverlapsReserved m bi p := by
  refine ⟨⟨fun h => ⟨h.clearOfTop hm, fun p hp r hr htop hrp => ?_, fun p hp r hr hr0 hpr hrp => ?_⟩,
    fun h => handsOutAll_of_clear hm h.1 h.2.1 h.2.2⟩, (mapPages_nodup hm).filter _, fun p => ?_⟩
  · exact (h.reserved_iff hm hp).mpr (overlapsReserved_of_top hm hp hr htop hrp)
  · -- the code takes the page that holds an empty range for reserved
    have hlt := mapPages_lt hm hp
    refine (h.reserved_iff hm hp).mp ((reserved_eq_true_iff hlt).mpr ⟨r, ?_, hpr, hrp⟩)
    exact mem_reservedRanges hr (by omega)
  · rw [usablePages, List.mem_filter, mem_mapPages hm, decide_eq_true_eq]

end

theorem smoke_emptyApart : EmptyApart smokeMachine smokeInfo := by
  have hranges : ∀ r ∈ keptRanges smokeMachine smokeInfo, r.2 ≤ r.1 → r.2 = 0 := by decide
  intro p hp r hr hempty hpr
  have := hranges r hr hempty
  omega

theorem pmm_hands_out_all_smoke : MapOk smokeMachine smokeInfo ∧ HandsOutAll smokeMachine smokeInfo :=
  ⟨smoke_mapOk, (pmm_hands_out_all_iff _ _ smoke_mapOk).1.mpr
    ⟨smoke_clearOfTop, smoke_reservedAtTop, smoke_emptyApart⟩⟩

/-- One conventional page with an empty framebuffer in its middle. -/
def emptyMachine : Machine := ⟨0, 0, 64, fun _ => ⟨7, 0x01000000, 1⟩⟩

def emptyInfo : OrionBootInfo := ⟨0x9000, 0x01000800, 0, 0x8000, 40, 40⟩

theorem empty_descriptors : descriptors emptyMachine emptyInfo = [⟨7, 0x01000000, 1⟩] := by decide

theorem empty_mapOk : MapOk emptyMachine emptyInfo where
  descSize := by decide
  extent := by decide
  aligned := by rw [empty_descriptors]; decide
  noWrap := by rw [empty_descriptors]; decide
  disjoint := by rw [empty_descriptors]; simp

/-- **A page too much**: the map has one page, and the second call returns the page behind it; or the
framebuffer's end wraps, and its pages are returned.  **A page too few**: a framebuffer of no bytes
keeps the page that it is in from being returned. -/
theorem pmm_hands_out_too_much : (MapOk topMachine topInfo ∧ ¬ HandsOutAll topMachine topInfo) ∧
    (MapOk frameMachine frameInfo ∧ ¬ HandsOutAll frameMachine frameInfo) ∧
    MapOk emptyMachine emptyInfo ∧ ¬ HandsOutAll emptyMachine emptyInfo := by
  refine ⟨⟨top_mapOk, fun h => ?_⟩, ⟨frame_mapOk, fun h => ?_⟩, empty_mapOk, fun h => ?_⟩
  · have hpage : (pmmAllocPage topMachine
        (afterAllocs topMachine 1 (pmmInit topMachine (some topInfo)))).1 = topPage := by decide
    have husable : (usablePages topMachine topInfo).getD 1 0 = 0 := by decide
    have h1 := h.pages 1
    rw [hpage, husable] at h1
    exact absurd h1 (by decide)
  · have hpage : (pmmAllocPage frameMachine (pmmInit frameMachine (some frameInfo))).1
        = 0xFFFFFFFFF0000000 := by decide
    have husable : (usablePages frameMachine frameInfo).getD 0 0 = 0 := by decide
    have h0 := h.pages 0
    rw [afterAllocs, hpage, husable] at h0
    exact absurd h0 (by decide)
  · have hpage : (pmmAllocPage emptyMachine (pmmInit emptyMachine (some emptyInfo))).1 = 0 := by decide
    have husable : (usablePages emptyMachine emptyInfo).getD 0 0 = 0x01000000 := by decide
    have h0 := h.pages 0
    rw [afterAllocs, hpage, husable] at h0
    exact absurd h0 (by decide)

end Orion.Pmm
