import Orion.Pmm.Map

/-!
# Who owns a page

Two statements about whole sessions of the allocator.

* `pmm_sessions_safe_iff` — with frees of held pages only, every page handed out is an aligned,
  unreserved page of conventional memory above 16 MiB that nobody else holds, and the books are
  right, for exactly the memory maps in which no conventional descriptor ends at
  `0xFFFFFFFFFFFFF000` and no page lies in a reserved range only whose end wraps.
  `conventional_page` guards its sum with `p+PAGE_SIZE>p`; neither the scan loop of
  `pmm_alloc_page` nor the ends in `reserved` have such a guard.
* `pmm_free_only_held_iff` — `pmm_free_page` takes a page that is not held exactly when the page is
  still ahead of the scan; in sessions without such frees no page is handed out twice.
-/

namespace Orion.Pmm

/-- The callers free only what they hold. -/
def HeldFrees (s : Session) : Call → Prop
  | .alloc => True
  | .free p => p ∈ s.held

/-- An aligned page of conventional memory above 16 MiB that shares no address with a reserved
range. -/
structure PageOk (m : Machine) (bi : OrionBootInfo) (p : ℕ) : Prop where
  aligned : p % 4096 = 0
  low : 16 * 1024 * 1024 ≤ p
  inside : ∃ d ∈ descriptors m bi, d.type = 7 ∧ d.physicalStart ≤ p ∧
    p + 4096 ≤ d.physicalStart + d.pages * 4096
  unreserved : ¬ OverlapsReserved m bi p

/-- What a session owes its callers. -/
structure Safe (m : Machine) (bi : OrionBootInfo) (s : Session) : Prop where
  page : (pmmAllocPage m s.pmm).1 ≠ 0 →
    PageOk m bi (pmmAllocPage m s.pmm).1 ∧ (pmmAllocPage m s.pmm).1 ∉ s.held
  used : pmmUsedPages s.pmm = s.held.length
  bounded : pmmUsedPages s.pmm ≤ pmmTotalPages s.pmm

section

variable {m : Machine} {bi : OrionBootInfo}

theorem sessionOk_of_reaches {allowed : Session → Call → Prop} (hm : MapOk m bi)
    (hfree : ∀ s p, SessionOk m bi s → allowed s (.free p) →
      (pmmFreePage m s.pmm p).1 = true → p ∈ s.held)
    {s : Session} (hs : Reaches m bi allowed s) : SessionOk m bi s := by
  induction hs with
  | refl => exact sessionOk_start hm
  | tail _ hstep ih =>
    obtain ⟨c, hc, rfl⟩ := hstep
    cases c with
    | alloc => exact sessionOk_alloc hm ih
    | free p => exact sessionOk_free ih (hfree _ p ih hc)

theorem sessionOk_of_heldFrees (hm : MapOk m bi) {s : Session} (hs : Reaches m bi HeldFrees s) :
    SessionOk m bi s :=
  sessionOk_of_reaches hm (fun _ _ _ h _ => h) hs

/-- A page that the scan hands out is in order, if nothing is hidden at the top. -/
theorem pageOk_of_mem (hm : MapOk m bi) (htop : ClearOfTop m bi) (hat : ReservedAtTop m bi) {p : ℕ}
    (hp : p ∈ allPages m bi) (hres : reserved m (some bi) p = false) : PageOk m bi p := by
  rw [allPages_eq_mapPages hm htop] at hp
  obtain ⟨hal, hlow, hinside⟩ := (mem_mapPages hm).mp hp
  refine ⟨hal, hlow, hinside, fun hover => ?_⟩
  have hyes := hat.reserved hm hp hover
  rw [hres] at hyes
  exact absurd hyes (by decide)

/-- With the map clear of the top, `pmm_init` counts the pages the scan visits. -/
theorem total_eq_allPages (hm : MapOk m bi) (htop : ClearOfTop m bi) :
    (Session.start m bi).pmm.totalPagesCount = (allPages m bi).length := by
  have hlt := allPages_length_lt hm
  have hfold := foldl_countDesc (descriptors m bi) 0
    (fun d hd hs => by
      simp only [skipsDesc, not_or, not_not] at hs
      exact descEnd_ne_topPage hm htop hd hs.1.1 hs.1.2)
    (by rw [allPages] at hlt; omega)
  rw [start_pmm hm, allPages]
  exact hfold.trans (Nat.zero_add _)

theorem safe_of_sessionOk (hm : MapOk m bi) (htop : ClearOfTop m bi) (hat : ReservedAtTop m bi)
    {s : Session} (hs : SessionOk m bi s) : Safe m bi s := by
  refine ⟨fun hne => ?_, hs.used, ?_⟩
  · obtain ⟨hmem, hres, hheld⟩ := alloc_spec hm hs hne
    exact ⟨pageOk_of_mem hm htop hat hmem hres, hheld⟩
  · rw [pmmUsedPages, pmmTotalPages, hs.used, hs.total, total_eq_allPages hm htop]
    exact hs.ledger.held_length_le

/-- Allocations alone reach every unreserved page that is still ahead. -/
theorem reaches_page (hm : MapOk m bi) {p : ℕ} (hres : reserved m (some bi) p = false) :
    ∀ (n : ℕ) (s : Session), (remaining m bi s.pmm).length ≤ n → Reaches m bi HeldFrees s →
      s.pmm.recycled = [] → p ∈ remaining m bi s.pmm →
      ∃ t, Reaches m bi HeldFrees t ∧ (pmmAllocPage m t.pmm).1 = p := by
  intro n
  induction n with
  | zero =>
    intro s hn _ _ hp
    rw [List.length_eq_zero_iff.mp (Nat.le_zero.mp hn)] at hp
    simp at hp
  | succ n ih =>
    intro s hn hs hrec hp
    have hok := sessionOk_of_heldFrees hm hs
    obtain ⟨hpage, hpool, -⟩ := pool_alloc hm hok
    cases hdrop : (remaining m bi s.pmm).dropWhile (reserved m (some bi)) with
    | nil =>
      have := skip_of_mem_of_not_mem_dropWhile _ _ _ hp (by rw [hdrop]; simp)
      rw [hres] at this
      simp at this
    | cons q rest =>
      rw [Pool.take_of_dropWhile_cons (p := pool m bi s) hrec hdrop] at hpage hpool
      by_cases hq : q = p
      · exact ⟨s, hs, hpage.trans hq⟩
      · have hmem : p ∈ q :: rest := by
          by_contra hno
          have := skip_of_mem_of_not_mem_dropWhile _ _ _ hp (by rw [hdrop]; exact hno)
          rw [hres] at this
          simp at this
        have hlen : (q :: rest).length ≤ (remaining m bi s.pmm).length := by
          rw [← hdrop]
          exact (List.dropWhile_sublist _).length_le
        rw [List.length_cons] at hlen
        have hrem : remaining m bi (s.step m .alloc).pmm = rest := congrArg Pool.fresh hpool
        refine ih (s.step m .alloc) (by rw [hrem]; omega) (hs.tail ⟨.alloc, trivial, rfl⟩)
          (congrArg Pool.stack hpool) ?_
        rw [hrem]
        exact (List.mem_cons.mp hmem).resolve_left (fun h => hq h.symm)

/-- A descriptor that ends at the last page boundary puts the page behind it into the scan. -/
theorem topPage_mem_allPages (hm : MapOk m bi) {d : EfiMemDesc} (hd : d ∈ descriptors m bi)
    (h7 : d.type = 7) (h0 : d.pages ≠ 0) (hend : d.physicalStart + d.pages * 4096 = topPage) :
    topPage ∈ allPages m bi := by
  have he : descEnd d = topPage := (descEnd_eq (hm.noWrap d hd h7)).trans hend
  refine List.mem_flatMap.mpr ⟨d, hd, ?_⟩
  rw [descPages_of_not_skips, scanPages, he, if_pos rfl]
  · simp
  · unfold skipsDesc
    rw [he, clampStart_eq]
    unfold pmmMinAddr topPage at *
    omega

/-- The page behind such a descriptor passes the test for reserved pages. -/
theorem topPage_not_reserved (m : Machine) (gBi : Option OrionBootInfo) :
    reserved m gBi topPage = false := by
  have hw : u64 (topPage + pageSize) = 0 := by decide
  rw [reserved, List.any_eq_false]
  intro r _
  simp [overlap, hw]

/-- The page behind such a descriptor is in no descriptor. -/
theorem topPage_not_pageOk (hm : MapOk m bi) : ¬ PageOk m bi topPage := by
  rintro ⟨-, -, ⟨d, hd, h7, -, hle⟩, -⟩
  have := hm.noWrap d hd h7
  unfold topPage pageSize at *
  omega

/-- Every unreserved page that the scan visits is handed out in some session. -/
theorem handed_out (hm : MapOk m bi) {p : ℕ} (hp : p ∈ allPages m bi)
    (hres : reserved m (some bi) p = false) :
    ∃ t, Reaches m bi HeldFrees t ∧ (pmmAllocPage m t.pmm).1 = p := by
  have hrec : (Session.start m bi).pmm.recycled = [] := congrArg Pool.stack (pool_start hm)
  have hrem : remaining m bi (Session.start m bi).pmm = allPages m bi :=
    congrArg Pool.fresh (pool_start hm)
  exact reaches_page hm hres _ (Session.start m bi) le_rfl .refl hrec (hrem ▸ hp)

/-- **Page ownership, exactly.**  All sessions whose frees are of held pages are safe if and only
if no conventional descriptor of the map ends at the last page boundary, and every page of the map
that meets a reserved range that reaches `2^64` passes for reserved all the same. -/
theorem pmm_sessions_safe_iff (m : Machine) (bi : OrionBootInfo) (hm : MapOk m bi) :
    (∀ s, Reaches m bi HeldFrees s → Safe m bi s) ↔ ClearOfTop m bi ∧ ReservedAtTop m bi := by
  constructor
  · intro hsafe
    have hok : ∀ p ∈ allPages m bi, p ≠ 0 → reserved m (some bi) p = false → PageOk m bi p := by
      intro p hp hne hres
      obtain ⟨t, ht, hpage⟩ := handed_out hm hp hres
      have := (hsafe t ht).page (by rwa [hpage])
      rw [hpage] at this
      exact this.1
    have htop : ClearOfTop m bi := fun d hd h7 h0 hend => topPage_not_pageOk hm
      (hok topPage (topPage_mem_allPages hm hd h7 h0 hend) (by decide) (topPage_not_reserved m (some bi)))
    refine ⟨htop, fun p hp r hr hend hrp => ?_⟩
    by_contra hres
    have hlow := ((mem_mapPages hm).mp hp).2.1
    have hpage := hok p (by rwa [allPages_eq_mapPages hm htop]) (by omega) (by simpa using hres)
    exact hpage.unreserved (overlapsReserved_of_top hm hp hr hend hrp)
  · rintro ⟨htop, hat⟩ s hs
    exact safe_of_sessionOk hm htop hat (sessionOk_of_heldFrees hm hs)

end

/-- The map of the recycle smoke test: eight conventional pages at 16 MiB, then other memory. -/
def smokeMachine : Machine :=
  ⟨0, 0, 64, fun a => if a = 0x8000 then ⟨7, 0x01000000, 8⟩ else ⟨11, 0x02000000, 8⟩⟩

def smokeInfo : OrionBootInfo := ⟨0x9000, 0, 0, 0x8000, 80, 40⟩

theorem smoke_descriptors :
    descriptors smokeMachine smokeInfo = [⟨7, 0x01000000, 8⟩, ⟨11, 0x02000000, 8⟩] := by decide

theorem smoke_mapOk : MapOk smokeMachine smokeInfo where
  descSize := by decide
  extent := by decide
  aligned := by rw [smoke_descriptors]; decide
  noWrap := by rw [smoke_descriptors]; decide
  disjoint := by rw [smoke_descriptors]; simp

theorem smoke_clearOfTop : ClearOfTop smokeMachine smokeInfo := by
  unfold ClearOfTop
  rw [smoke_descriptors]
  decide

theorem smoke_reservedAtTop : ReservedAtTop smokeMachine smokeInfo := by
  have hends : ∀ r ∈ keptRanges smokeMachine smokeInfo, ¬ 2 ^ 64 ≤ r.2 := by decide
  exact fun p _ r hr htop => absurd htop (hends r hr)

theorem pmm_sessions_safe_smoke :
    MapOk smokeMachine smokeInfo ∧ ClearOfTop smokeMachine smokeInfo ∧
      ReservedAtTop smokeMachine smokeInfo ∧
      ∀ s, Reaches smokeMachine smokeInfo HeldFrees s → Safe smokeMachine smokeInfo s :=
  ⟨smoke_mapOk, smoke_clearOfTop, smoke_reservedAtTop,
    (pmm_sessions_safe_iff _ _ smoke_mapOk).mpr ⟨smoke_clearOfTop, smoke_reservedAtTop⟩⟩

/-- One conventional page, right below the last page boundary of the address space. -/
def topMachine : Machine := ⟨0, 0, 64, fun _ => ⟨7, 0xFFFFFFFFFFFFE000, 1⟩⟩

def topInfo : OrionBootInfo := ⟨0x9000, 0, 0, 0x8000, 40, 40⟩

theorem top_descriptors : descriptors topMachine topInfo = [⟨7, 0xFFFFFFFFFFFFE000, 1⟩] := by decide

theorem top_mapOk : MapOk topMachine topInfo where
  descSize := by decide
  extent := by decide
  aligned := by rw [top_descriptors]; decide
  noWrap := by rw [top_descriptors]; decide
  disjoint := by rw [top_descriptors]; simp

/-- Four conventional pages at the start of a framebuffer that reaches the end of the address
space. -/
def frameMachine : Machine := ⟨0, 0, 64, fun _ => ⟨7, 0xFFFFFFFFF0000000, 4⟩⟩

def frameInfo : OrionBootInfo := ⟨0x9000, 0xFFFFFFFFF0000000, 0x10000000, 0x8000, 40, 40⟩

theorem frame_descriptors : descriptors frameMachine frameInfo = [⟨7, 0xFFFFFFFFF0000000, 4⟩] := by
  decide

theorem frame_mapOk : MapOk frameMachine frameInfo where
  descSize := by decide
  extent := by decide
  aligned := by rw [frame_descriptors]; decide
  noWrap := by rw [frame_descriptors]; decide
  disjoint := by rw [frame_descriptors]; simp

theorem frame_overlaps : OverlapsReserved frameMachine frameInfo 0xFFFFFFFFF0000000 := by decide

/-- **The scan leaves the map**: the second allocation hands out the page behind the only descriptor.
**And it enters the framebuffer**: its end wraps to 0, and the first allocation hands out its first
page. -/
theorem pmm_alloc_leaves_map : (MapOk topMachine topInfo ∧
      ∃ s, Reaches topMachine topInfo HeldFrees s ∧
        (pmmAllocPage topMachine s.pmm).1 = 0xFFFFFFFFFFFFF000 ∧ ¬ Safe topMachine topInfo s) ∧
    MapOk frameMachine frameInfo ∧ ∃ s, Reaches frameMachine frameInfo HeldFrees s ∧
      (pmmAllocPage frameMachine s.pmm).1 = 0xFFFFFFFFF0000000 ∧ ¬ Safe frameMachine frameInfo s := by
  refine ⟨⟨top_mapOk, (Session.start topMachine topInfo).step topMachine .alloc,
    .tail .refl ⟨.alloc, trivial, rfl⟩, ?_, fun hsafe => ?_⟩,
    frame_mapOk, Session.start frameMachine frameInfo, .refl, ?_, fun hsafe => ?_⟩
  · decide
  · have hpage : (pmmAllocPage topMachine
        ((Session.start topMachine topInfo).step topMachine .alloc).pmm).1 = topPage := by decide
    have := (hsafe.page (by rw [hpage]; decide)).1
    rw [hpage] at this
    exact topPage_not_pageOk top_mapOk this
  · decide
  · have hpage : (pmmAllocPage frameMachine (Session.start frameMachine frameInfo).pmm).1
        = 0xFFFFFFFFF0000000 := by decide
    have := (hsafe.page (by rw [hpage]; decide)).1
    rw [hpage] at this
    exact this.unreserved frame_overlaps

/-! ## Frees of pages that are not held -/

section

variable {m : Machine} {bi : OrionBootInfo}

/-- The page is one that the scan has still to hand out, and `pmm_free_page` is in a state to take
pages. -/
def StrayFree (m : Machine) (bi : OrionBootInfo) (s : State) (p : ℕ) : Prop :=
  p ∈ remaining m bi s ∧ p ≠ topPage ∧ reserved m (some bi) p = false ∧
    s.usedPagesCount ≠ 0 ∧ s.recycled.length < pmmRecycleCap

/-- The callers may pass anything to `pmm_free_page`, except pages still ahead of the scan. -/
def PassedFrees (m : Machine) (bi : OrionBootInfo) (s : Session) : Call → Prop
  | .alloc => True
  | .free p => ¬ StrayFree m bi s.pmm p

/-- In a state that is in order, a free takes a page that is not held exactly when it is stray. -/
theorem free_takes_held_iff (hm : MapOk m bi) {s : Session} (hs : SessionOk m bi s) (p : ℕ) :
    ((pmmFreePage m s.pmm p).1 = true → p ∈ s.held) ↔ ¬ StrayFree m bi s.pmm p := by
  constructor
  · rintro hheld ⟨hrem, hne, hres, hused, hroom⟩
    have hnot : p ∉ s.held := hs.ledger.not_held (by simp [pool, hrem])
    have hitems : p ∈ (pool m bi s).items := by simp [Pool.items, pool, hrem]
    refine hnot (hheld ((pmmFreePage_eq_true_iff s.pmm p).mpr ⟨hs.ne_zero hm hitems, hused, ?_, ?_,
      hroom, ?_⟩))
    · rw [hs.cursor.info, conventionalPage_iff hm]
      exact ⟨hs.ledger.subset p hitems, hne⟩
    · rw [hs.cursor.info]
      exact hres
    · intro hrec
      have hn := hs.ledger.nodup
      simp only [Pool.items, pool] at hn
      exact (List.nodup_append.mp hn).2.2 p (by simp [hrec]) p hrem rfl
  · intro hstray hfree
    refine (held_or_ahead_of_free hm hs hfree).resolve_right fun hrem => hstray ?_
    obtain ⟨-, hused, hc, hr, hroom, -⟩ := (pmmFreePage_eq_true_iff s.pmm p).mp hfree
    rw [hs.cursor.info] at hc hr
    exact ⟨hrem, ((conventionalPage_iff hm p).mp hc).2, hr, hused, hroom⟩

/-- **Frees, exactly.**  In every session in which no free was stray, a call of `pmm_free_page`
takes only held pages if and only if its argument is not stray, and `pmm_alloc_page` hands out no
page that is held. -/
theorem pmm_free_only_held_iff (m : Machine) (bi : OrionBootInfo) (hm : MapOk m bi) (s : Session)
    (hs : Reaches m bi (PassedFrees m bi) s) :
    (∀ p, ((pmmFreePage m s.pmm p).1 = true → p ∈ s.held) ↔ ¬ StrayFree m bi s.pmm p) ∧
      ((pmmAllocPage m s.pmm).1 ≠ 0 → (pmmAllocPage m s.pmm).1 ∉ s.held) := by
  have hok : SessionOk m bi s :=
    sessionOk_of_reaches hm (fun t p ht hp => (free_takes_held_iff hm ht p).mpr hp) hs
  exact ⟨fun p => free_takes_held_iff hm hok p, fun hne => (alloc_spec hm hok hne).2.2⟩

end

theorem pmm_free_only_held_smoke :
    Reaches smokeMachine smokeInfo (PassedFrees smokeMachine smokeInfo)
        ((Session.start smokeMachine smokeInfo).step smokeMachine .alloc) ∧
      (pmmAllocPage smokeMachine
          ((Session.start smokeMachine smokeInfo).step smokeMachine .alloc).pmm).1 ∉
        ((Session.start smokeMachine smokeInfo).step smokeMachine .alloc).held := by
  have hs : Reaches smokeMachine smokeInfo (PassedFrees smokeMachine smokeInfo)
      ((Session.start smokeMachine smokeInfo).step smokeMachine .alloc) :=
    .tail .refl ⟨.alloc, trivial, rfl⟩
  exact ⟨hs, (pmm_free_only_held_iff _ _ smoke_mapOk _ hs).2 (by decide)⟩

/-- The session of the counterexample: one page is allocated, and the next one is freed. -/
def straySession : Session :=
  ((Session.start smokeMachine smokeInfo).step smokeMachine .alloc).step smokeMachine
    (.free 0x01001000)

/-- **A page with two owners.**  After one allocation `pmm_free_page` takes the page the scan would
hand out next, which nobody holds; the next allocation hands it out from the recycle array, and the
one after it hands it out again from the scan, while it is held. -/
theorem pmm_free_takes_unallocated : MapOk smokeMachine smokeInfo ∧
    (∃ s, Reaches smokeMachine smokeInfo (fun _ _ => True) s ∧
      (pmmFreePage smokeMachine s.pmm 0x01001000).1 = true ∧ 0x01001000 ∉ s.held) ∧
    (∃ s, Reaches smokeMachine smokeInfo (fun _ _ => True) s ∧
      (pmmAllocPage smokeMachine s.pmm).1 = 0x01001000 ∧ 0x01001000 ∈ s.held) := by
  have h1 : Reaches smokeMachine smokeInfo (fun _ _ => True)
      ((Session.start smokeMachine smokeInfo).step smokeMachine .alloc) :=
    .tail .refl ⟨.alloc, trivial, rfl⟩
  have h2 : Reaches smokeMachine smokeInfo (fun _ _ => True)
      (straySession.step smokeMachine .alloc) :=
    (h1.tail ⟨.free 0x01001000, trivial, rfl⟩).tail ⟨.alloc, trivial, rfl⟩
  exact ⟨smoke_mapOk, ⟨_, h1, by decide⟩, ⟨_, h2, by decide⟩⟩

end Orion.Pmm
