import Mathlib.Logic.Relation
import Mathlib.Order.Interval.Finset.Nat
import Orion.Lib.Pool
import Orion.Pmm.Scan

/-!
# Sessions of the page allocator as runs of a pool

A session is the allocator together with the pages its callers hold.  `pool` reads a session as a
pool over `allPages`, the pages the scan visits from the start; `pool_alloc` and `pool_free` say
that the two calls of the allocator are the two operations of the pool, and `SessionOk` is the
invariant that follows from the pool's ledger.
-/

namespace Orion.Pmm

/-- The allocator and the pages handed out and not taken back since. -/
structure Session where
  pmm : State
  held : List ℕ

inductive Call where
  | alloc
  | free (page : ℕ)

def Session.step (m : Machine) (s : Session) : Call → Session
  | .alloc =>
    let r := pmmAllocPage m s.pmm
    ⟨r.2, if r.1 = 0 then s.held else r.1 :: s.held⟩
  | .free page =>
    let r := pmmFreePage m s.pmm page
    ⟨r.2, if r.1 then s.held.erase page else s.held⟩

def Session.start (m : Machine) (bi : OrionBootInfo) : Session := ⟨pmmInit m (some bi), []⟩

/-- Sessions reached from the start by calls that `allowed` permits where they are made. -/
def Reaches (m : Machine) (bi : OrionBootInfo) (allowed : Session → Call → Prop)
    (s : Session) : Prop :=
  Relation.ReflTransGen (fun t t' => ∃ c, allowed t c ∧ t' = t.step m c) (Session.start m bi) s

/-- The pages the scan visits, from the start. -/
def allPages (m : Machine) (bi : OrionBootInfo) : List ℕ := (descriptors m bi).flatMap descPages

/-- A session as a pool. -/
def pool (m : Machine) (bi : OrionBootInfo) (s : Session) : Pool ℕ :=
  ⟨s.held, s.pmm.recycled, remaining m bi s.pmm⟩

section

variable {m : Machine} {bi : OrionBootInfo}

/-! ## The pages of the map -/

/-- The pages of a descriptor: those inside it, and the page the wrapped test adds. -/
theorem mem_descPages {d : EfiMemDesc} {p : ℕ} (h : p ∈ descPages d) :
    d.type = 7 ∧ pmmMinAddr ≤ p ∧ ((d.physicalStart ≤ p ∧ p + pageSize ≤ descEnd d) ∨
      (descEnd d = topPage ∧ p = topPage)) := by
  by_cases hs : skipsDesc d
  · rw [descPages_of_skips hs] at h
    simp at h
  · rw [descPages_of_not_skips hs, scanPages, List.mem_append, mem_pageRange, clampStart_eq] at h
    simp only [skipsDesc, not_or, not_not] at hs
    refine ⟨hs.1.1, ?_⟩
    rcases h with h | h
    · omega
    · split at h
      · next ht =>
        rw [List.mem_singleton] at h
        have : pmmMinAddr ≤ topPage := by decide
        exact ⟨by omega, .inr ⟨ht, h⟩⟩
      · simp at h

theorem descPages_nodup (d : EfiMemDesc) : (descPages d).Nodup := by
  by_cases hs : skipsDesc d
  · rw [descPages_of_skips hs]
    exact List.nodup_nil
  · rw [descPages_of_not_skips hs, scanPages, List.nodup_append]
    refine ⟨pageRange_nodup _ _, by split <;> simp, ?_⟩
    rintro x hx y hy rfl
    split at hy
    · next he =>
      rw [List.mem_singleton] at hy
      rw [mem_pageRange] at hx
      unfold pageSize at hx
      omega
    · simp at hy

/-- Different descriptors account for different pages. -/
theorem descPages_disjoint (hm : MapOk m bi) {d e : EfiMemDesc} (hd : d ∈ descriptors m bi)
    (he : e ∈ descriptors m bi)
    (hdis : d.type = 7 → e.type = 7 →
      ∀ a, ¬ ((d.physicalStart ≤ a ∧ a < d.physicalStart + d.pages * pageSize) ∧
        (e.physicalStart ≤ a ∧ a < e.physicalStart + e.pages * pageSize))) :
    List.Disjoint (descPages d) (descPages e) := by
  intro p hp hq
  obtain ⟨hd7, -, hpd⟩ := mem_descPages hp
  obtain ⟨he7, -, hpe⟩ := mem_descPages hq
  have hdis := hdis hd7 he7
  have hwd := hm.noWrap d hd hd7
  have hwe := hm.noWrap e he he7
  rw [descEnd_eq hwd] at hpd
  rw [descEnd_eq hwe] at hpe
  -- both end at the last page boundary: they share the page below it
  have hnonempty : ∀ {f : EfiMemDesc} {q : ℕ}, q ∈ descPages f → f.pages ≠ 0 := by
    intro f q hq h0
    rw [descPages_of_skips (.inl (.inr h0))] at hq
    simp at hq
  have hdn := hnonempty hp
  have hen := hnonempty hq
  rcases hpd with hpd | ⟨hpd, rfl⟩
  · rcases hpe with hpe | ⟨hpe, rfl⟩
    · exact hdis p (by unfold pageSize at *; omega)
    · unfold topPage pageSize at *
      omega
  · rcases hpe with hpe | ⟨hpe, -⟩
    · unfold topPage pageSize at *
      omega
    · exact hdis (topPage - 1) (by unfold topPage pageSize at *; omega)

theorem allPages_nodup (hm : MapOk m bi) : (allPages m bi).Nodup := by
  rw [allPages, List.nodup_flatMap]
  refine ⟨fun d _ => descPages_nodup d, ?_⟩
  have h := hm.disjoint
  rw [List.pairwise_iff_forall_sublist] at h ⊢
  intro d e hsub
  exact descPages_disjoint hm (hsub.subset (by simp)) (hsub.subset (by simp)) (h hsub)

theorem mem_allPages_bounds (hm : MapOk m bi) {p : ℕ} (h : p ∈ allPages m bi) :
    pmmMinAddr ≤ p ∧ p < 2 ^ 64 := by
  rw [allPages, List.mem_flatMap] at h
  obtain ⟨d, hd, hp⟩ := h
  obtain ⟨h7, hlow, hin⟩ := mem_descPages hp
  have hw := hm.noWrap d hd h7
  rw [descEnd_eq hw] at hin
  refine ⟨hlow, ?_⟩
  unfold topPage pageSize at *
  omega

/-- There are fewer pages than addresses. -/
theorem allPages_length_lt (hm : MapOk m bi) : (allPages m bi).length + 1 < 2 ^ 64 := by
  have hsub : allPages m bi ⊆ (List.range (2 ^ 64 - pmmMinAddr)).map (pmmMinAddr + ·) := by
    intro p hp
    have := mem_allPages_bounds hm hp
    rw [List.mem_map]
    exact ⟨p - pmmMinAddr, by rw [List.mem_range]; omega, by omega⟩
  have h := ((allPages_nodup hm).subperm hsub).length_le
  rw [List.length_map, List.length_range] at h
  unfold pmmMinAddr at h
  omega

/-! ## The counters -/

/-- The pages that `pmm_init` counts in a descriptor. -/
theorem countDesc_eq (total : ℕ) (d : EfiMemDesc) (h : ¬ skipsDesc d → descEnd d ≠ topPage)
    (hlt : total + (descPages d).length < 2 ^ 64) :
    countDesc total d = total + (descPages d).length := by
  by_cases hs : skipsDesc d
  · rw [descPages_of_skips hs, List.length_nil, Nat.add_zero]
    unfold countDesc
    unfold skipsDesc at hs
    split
    · rfl
    · split
      · rfl
      · rw [if_neg (by omega)]
  · have hlen : (descPages d).length
        = (descEnd d - clampStart d.physicalStart) / pageSize := by
      rw [descPages_of_not_skips hs, scanPages, if_neg (h hs), List.append_nil, pageRange_length]
    rw [hlen] at hlt ⊢
    simp only [skipsDesc, not_or, not_not] at hs
    unfold countDesc
    rw [if_neg (by tauto), if_neg (by tauto), if_pos (by omega), u64_of_lt hlt]

theorem foldl_countDesc : ∀ (ds : List EfiMemDesc) (total : ℕ),
    (∀ d ∈ ds, ¬ skipsDesc d → descEnd d ≠ topPage) →
    total + (ds.flatMap descPages).length < 2 ^ 64 →
    ds.foldl countDesc total = total + (ds.flatMap descPages).length := by
  intro ds
  induction ds with
  | nil => intro total _ _; simp
  | cons d ds ih =>
    intro total htop hlt
    rw [List.flatMap_cons, List.length_append] at hlt ⊢
    rw [List.foldl_cons, countDesc_eq total d (htop d List.mem_cons_self) (by omega),
      ih _ (fun e he => htop e (List.mem_cons_of_mem d he)) (by omega)]
    omega

/-! ## The invariant -/

/-- What holds of every session whose frees are of pages the callers hold. -/
structure SessionOk (m : Machine) (bi : OrionBootInfo) (s : Session) : Prop where
  cursor : CursorOk m bi s.pmm
  ledger : Ledger (allPages m bi) (reserved m (some bi)) (pool m bi s)
  used : s.pmm.usedPagesCount = s.held.length
  total : s.pmm.totalPagesCount = (Session.start m bi).pmm.totalPagesCount

theorem start_pmm (hm : MapOk m bi) : (Session.start m bi).pmm =
    ⟨some bi, (descriptors m bi).foldl countDesc 0, 0, 0, 0, 0, []⟩ := by
  simp [Session.start, pmmInit, hm.descSize_ne_zero]

/-- At the start everything is still ahead of the scan. -/
theorem pool_start (hm : MapOk m bi) : pool m bi (Session.start m bi) = ⟨[], [], allPages m bi⟩ := by
  have hrem : remaining m bi (Session.start m bi).pmm = allPages m bi := by
    simp [start_pmm hm, remaining, currentPages, allPages, descriptors_eq_descsFrom]
  rw [pool, hrem, start_pmm hm]
  rfl

theorem sessionOk_start (hm : MapOk m bi) : SessionOk m bi (Session.start m bi) := by
  refine ⟨?_, ?_, ?_, rfl⟩
  · rw [start_pmm hm]
    exact ⟨rfl, .inl rfl, by have := hm.descSize; simp only; omega, List.suffix_refl _⟩
  · rw [pool_start hm]
    exact ledger_start _ (allPages_nodup hm)
  · rw [start_pmm hm]
    rfl

/-- Nothing the pool accounts for is page 0. -/
theorem SessionOk.ne_zero (hm : MapOk m bi) {s : Session} (hs : SessionOk m bi s) {p : ℕ}
    (hp : p ∈ (pool m bi s).items) : p ≠ 0 := by
  have := mem_allPages_bounds hm (hs.ledger.subset p hp)
  unfold pmmMinAddr at this
  omega

/-- One more page does not overflow the counter. -/
theorem SessionOk.count_succ (hm : MapOk m bi) {s : Session} (hs : SessionOk m bi s) (p : ℕ) :
    u64 (s.pmm.usedPagesCount + 1) = (p :: s.held).length := by
  have hle : s.held.length ≤ (allPages m bi).length := hs.ledger.held_length_le
  have hlt := allPages_length_lt hm
  rw [hs.used, List.length_cons]
  exact u64_of_lt (by omega)

/-- The session after an allocation that hands out `p`. -/
theorem step_alloc_some {s : Session} {p : ℕ} {t : State} (h : pmmAllocPage m s.pmm = (p, t))
    (hp : p ≠ 0) : s.step m .alloc = ⟨t, p :: s.held⟩ := by
  simp [Session.step, h, hp]

theorem step_alloc_none {s : Session} {t : State} (h : pmmAllocPage m s.pmm = (0, t)) :
    s.step m .alloc = ⟨t, s.held⟩ := by
  simp [Session.step, h]

/-- **`pmm_alloc_page` is the pool's `take`.** -/
theorem pool_alloc (hm : MapOk m bi) {s : Session} (hs : SessionOk m bi s) :
    (pmmAllocPage m s.pmm).1 = (((pool m bi s).take (reserved m (some bi))).1).getD 0 ∧
    pool m bi (s.step m .alloc) = ((pool m bi s).take (reserved m (some bi))).2 ∧
    CursorOk m bi (s.step m .alloc).pmm ∧
    (s.step m .alloc).pmm.usedPagesCount = (s.step m .alloc).held.length ∧
    (s.step m .alloc).pmm.totalPagesCount = s.pmm.totalPagesCount := by
  cases hrec : s.pmm.recycled with
  | cons p rest =>
    have hp : p ≠ 0 := hs.ne_zero hm (by simp [Pool.items, pool, hrec])
    have hrun : pmmAllocPage m s.pmm = (p, { s.pmm with
        recycled := rest, usedPagesCount := u64 (s.pmm.usedPagesCount + 1) }) := by
      rw [pmmAllocPage, hrec]
    rw [step_alloc_some hrun hp, hrun]
    simp only [pool, hrec, Pool.take, Option.getD_some, true_and]
    exact ⟨rfl, ⟨hs.cursor.info, hs.cursor.scan, hs.cursor.off, hs.cursor.suffix⟩,
      hs.count_succ hm p, trivial⟩
  | nil =>
    have hrun : pmmAllocPage m s.pmm = scanLoop m bi (bi.memoryMapSize + 2) s.pmm := by
      simp [pmmAllocPage, hrec, hs.cursor.info, hm.descSize_ne_zero]
    have hspec := scanLoop_spec hm (bi.memoryMapSize + 2) s.pmm hs.cursor
      (lt_of_le_of_lt (descLoop_length_le _ _) (by omega))
    rw [← hrun] at hspec
    cases hdrop : (remaining m bi s.pmm).dropWhile (reserved m (some bi)) with
    | nil =>
      rw [hdrop] at hspec
      have hout : pmmAllocPage m s.pmm = (0, (pmmAllocPage m s.pmm).2) :=
        Prod.ext hspec.page rfl
      rw [step_alloc_none hout, Pool.take_of_dropWhile_nil (p := pool m bi s) hrec hdrop]
      refine ⟨hspec.page, ?_, hspec.cursor, hspec.used.trans hs.used, hspec.total⟩
      simp only [pool, hspec.rest, hspec.recycled, hrec]
    | cons p rest =>
      rw [hdrop] at hspec
      have hout : pmmAllocPage m s.pmm = (p, (pmmAllocPage m s.pmm).2) :=
        Prod.ext hspec.page rfl
      have hmem : p ∈ remaining m bi s.pmm :=
        (List.dropWhile_sublist _).subset (by rw [hdrop]; exact List.mem_cons_self)
      have hp : p ≠ 0 := hs.ne_zero hm (by simp [Pool.items, pool, hmem])
      rw [step_alloc_some hout hp, Pool.take_of_dropWhile_cons (p := pool m bi s) hrec hdrop]
      refine ⟨hspec.page, ?_, hspec.cursor, hspec.used.trans (hs.count_succ hm p), hspec.total⟩
      simp only [pool, hspec.rest, hspec.recycled, hrec]

theorem sessionOk_alloc (hm : MapOk m bi) {s : Session} (hs : SessionOk m bi s) :
    SessionOk m bi (s.step m .alloc) := by
  obtain ⟨-, hpool, hcur, hused, htotal⟩ := pool_alloc hm hs
  exact ⟨hcur, hpool ▸ ledger_take hs.ledger, hused, htotal.trans hs.total⟩

/-- A page that an allocation hands out: usable, from the map, and held by nobody. -/
theorem alloc_spec (hm : MapOk m bi) {s : Session} (hs : SessionOk m bi s)
    (hne : (pmmAllocPage m s.pmm).1 ≠ 0) :
    (pmmAllocPage m s.pmm).1 ∈ allPages m bi ∧
      reserved m (some bi) (pmmAllocPage m s.pmm).1 = false ∧
      (pmmAllocPage m s.pmm).1 ∉ s.held := by
  obtain ⟨hpage, -⟩ := pool_alloc hm hs
  cases htake : ((pool m bi s).take (reserved m (some bi))).1 with
  | none =>
    rw [htake] at hpage
    exact absurd hpage hne
  | some p =>
    rw [htake] at hpage
    obtain ⟨hu, hr, hh, -⟩ := take_spec hs.ledger htake
    rw [hpage]
    exact ⟨hu, hr, hh⟩

/-! ## Frees -/

/-- The page passes all the tests of `pmm_free_page`. -/
theorem pmmFreePage_eq_true_iff (s : State) (p : ℕ) :
    (pmmFreePage m s p).1 = true ↔ p ≠ 0 ∧ s.usedPagesCount ≠ 0 ∧
      conventionalPage m s.gBi p = true ∧ reserved m s.gBi p = false ∧
      s.recycled.length < pmmRecycleCap ∧ p ∉ s.recycled := by
  unfold pmmFreePage
  split
  · next h =>
    simp only [Bool.false_eq_true, false_iff]
    rintro ⟨h1, h2, h3, h4, h5, -⟩
    simp only [h3, h4, Bool.true_eq_false, Bool.false_eq_true, false_or] at h
    omega
  · next h =>
    simp only [not_or, Bool.not_eq_false, Bool.not_eq_true, not_le, ge_iff_le] at h
    obtain ⟨h1, h2, h3, h4, h5⟩ := h
    split
    · next hmem => simp [hmem]
    · next hmem => simp [h1, h2, h3, h4, h5, hmem]

/-- A turn of the loop of `conventional_page` finds the aligned pages of the descriptor. -/
theorem coversPage_iff (hm : MapOk m bi) {d : EfiMemDesc} (hd : d ∈ descriptors m bi) (p : ℕ) :
    (pmmMinAddr ≤ p ∧ p % pageSize = 0 ∧ coversPage d p = true) ↔
      p ∈ descPages d ∧ p ≠ topPage := by
  by_cases h7 : d.type = 7
  · have hw := hm.noWrap d hd h7
    have he := descEnd_eq hw
    have ha := hm.aligned d hd h7
    have hmin : pmmMinAddr % pageSize = 0 := by decide
    have hclamp : clampStart d.physicalStart % pageSize = 0 := by
      rw [clampStart_eq]
      rcases Nat.le_total d.physicalStart pmmMinAddr with h | h
      · rwa [Nat.max_eq_right h]
      · rwa [Nat.max_eq_left h]
    constructor
    · rintro ⟨hlow, hal, hc⟩
      unfold coversPage at hc
      rw [if_neg (by intro h; rw [if_pos h] at hc; simp at hc), if_neg (by omega)] at hc
      simp only [Bool.and_eq_true, decide_eq_true_eq] at hc
      obtain ⟨⟨h1, h2⟩, h3⟩ := hc
      have hp : u64 (p + pageSize) = p + pageSize := by
        unfold u64 pageSize at *
        omega
      rw [hp] at h3
      rw [clampStart_eq] at h1
      have hns : ¬ skipsDesc d := by
        unfold skipsDesc
        rw [clampStart_eq]
        rintro ((h | h) | (h | h) | h)
        · exact h h7
        · rw [h, Nat.zero_mul] at he
          unfold pageSize at h3
          omega
        all_goals
          unfold pageSize at *
          omega
      rw [descPages_of_not_skips hns, scanPages, List.mem_append, mem_pageRange, clampStart_eq]
      rw [clampStart_eq] at hclamp
      unfold topPage pageSize at *
      exact ⟨.inl ⟨h1, h3, by omega⟩, by omega⟩
    · rintro ⟨hmem, hne⟩
      have hns : ¬ skipsDesc d := by
        intro h
        rw [descPages_of_skips h] at hmem
        simp at hmem
      rw [descPages_of_not_skips hns, scanPages, List.mem_append, mem_pageRange] at hmem
      simp only [skipsDesc, not_or, not_not] at hns
      have hin : clampStart d.physicalStart ≤ p ∧ p + pageSize ≤ descEnd d ∧
          (p - clampStart d.physicalStart) % pageSize = 0 := by
        refine hmem.resolve_right fun h => ?_
        split at h
        · exact hne (List.mem_singleton.mp h)
        · simp at h
      have hp : u64 (p + pageSize) = p + pageSize := u64_of_lt (by omega)
      have hclamp' := clampStart_eq d.physicalStart
      refine ⟨by omega, by unfold pageSize at *; omega, ?_⟩
      unfold coversPage
      rw [if_neg (not_or.mpr ⟨not_not.mpr h7, hns.1.2⟩), if_neg (by omega), hp]
      simp only [Bool.and_eq_true, decide_eq_true_eq]
      unfold pageSize at *
      omega
  · constructor
    · rintro ⟨-, -, hc⟩
      simp [coversPage, h7] at hc
    · rintro ⟨hmem, -⟩
      exact absurd (mem_descPages hmem).1 h7

/-- The conventional pages are the pages the scan visits, except the one behind a descriptor that
ends at the last page boundary. -/
theorem conventionalPage_iff (hm : MapOk m bi) (p : ℕ) :
    conventionalPage m (some bi) p = true ↔ p ∈ allPages m bi ∧ p ≠ topPage := by
  have hsize := hm.descSize_ne_zero
  have hguard : conventionalPage m (some bi) p = true ↔
      ∃ d ∈ descriptors m bi, pmmMinAddr ≤ p ∧ p % pageSize = 0 ∧ coversPage d p = true := by
    simp only [conventionalPage]
    split
    · next h =>
      simp only [Bool.false_eq_true, false_iff]
      rintro ⟨d, -, h1, h2, -⟩
      omega
    · next h =>
      simp only [not_or, not_lt, not_not] at h
      rw [List.any_eq_true]
      exact ⟨fun ⟨d, hd, hc⟩ => ⟨d, hd, h.2.1, h.2.2, hc⟩, fun ⟨d, hd, _, _, hc⟩ => ⟨d, hd, hc⟩⟩
  rw [hguard, allPages, List.mem_flatMap]
  constructor
  · rintro ⟨d, hd, h⟩
    obtain ⟨hp, hne⟩ := (coversPage_iff hm hd p).mp h
    exact ⟨⟨d, hd, hp⟩, hne⟩
  · rintro ⟨⟨d, hd, hp⟩, hne⟩
    exact ⟨d, hd, (coversPage_iff hm hd p).mpr ⟨hp, hne⟩⟩

/-- The state after a free that was taken. -/
theorem step_free_true {s : Session} {p : ℕ} (h : (pmmFreePage m s.pmm p).1 = true) :
    s.step m (.free p) = ⟨{ s.pmm with recycled := p :: s.pmm.recycled,
                                       usedPagesCount := s.pmm.usedPagesCount - 1 },
      s.held.erase p⟩ := by
  have htests := (pmmFreePage_eq_true_iff s.pmm p).mp h
  obtain ⟨h1, h2, h3, h4, h5, h6⟩ := htests
  simp only [Session.step, h, if_true]
  unfold pmmFreePage
  rw [if_neg (by simp only [h3, h4, Bool.true_eq_false, Bool.false_eq_true, false_or]; omega),
    if_neg h6]

theorem step_free_false {s : Session} {p : ℕ} (h : (pmmFreePage m s.pmm p).1 = false) :
    s.step m (.free p) = s := by
  have hst : (pmmFreePage m s.pmm p).2 = s.pmm := by
    revert h
    unfold pmmFreePage
    split
    · simp
    · split <;> simp
  simp [Session.step, h, hst]

theorem pool_free {s : Session} {p : ℕ} (h : (pmmFreePage m s.pmm p).1 = true) :
    pool m bi (s.step m (.free p)) = (pool m bi s).give p := by
  rw [step_free_true h]
  rfl

/-- **A free of a held page is the pool's `give`, or nothing.** -/
theorem sessionOk_free {s : Session} (hs : SessionOk m bi s) {p : ℕ}
    (hp : (pmmFreePage m s.pmm p).1 = true → p ∈ s.held) : SessionOk m bi (s.step m (.free p)) := by
  cases hfree : (pmmFreePage m s.pmm p).1 with
  | false =>
    rw [step_free_false hfree]
    exact hs
  | true =>
    have hheld := hp hfree
    have hledger := ledger_give hs.ledger hheld
    rw [← pool_free hfree] at hledger
    rw [step_free_true hfree] at hledger ⊢
    refine ⟨⟨hs.cursor.info, hs.cursor.scan, hs.cursor.off, hs.cursor.suffix⟩, hledger, ?_, hs.total⟩
    simp only
    rw [hs.used, List.length_erase_of_mem hheld]

/-- A page that a free can take is held or still ahead of the scan. -/
theorem held_or_ahead_of_free (hm : MapOk m bi) {s : Session} (hs : SessionOk m bi s) {p : ℕ}
    (h : (pmmFreePage m s.pmm p).1 = true) : p ∈ s.held ∨ p ∈ remaining m bi s.pmm := by
  obtain ⟨-, -, hc, hr, -, hrec⟩ := (pmmFreePage_eq_true_iff s.pmm p).mp h
  rw [hs.cursor.info] at hc hr
  have hcover := hs.ledger.cover p ((conventionalPage_iff hm p).mp hc).1 hr
  simp only [Pool.items, pool, List.mem_append] at hcover
  tauto

end

end Orion.Pmm
