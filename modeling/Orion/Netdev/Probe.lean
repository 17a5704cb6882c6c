import Orion.Kernel.Pci

/-!
# Finding the adapter (`init` of the drivers, up to the adapter's own registers)

A driver searches the bus for its adapter, reads from a base register where the adapter's registers are,
and switches the adapter on.

* `port_probe_enables` — a driver with ports takes the first adapter that can be seen, or none: another
  one is not tried when the base register of the first does not fit;
* `find_first` — the e1000 driver prefers the ids at the front of its table, wherever the adapters are;
* `e1000_probe_enables` — so it takes the first candidate in that order;
* `memoryPlace_eq_some_iff` — the memory of an e1000 is aligned and below 4 GiB.
-/

namespace Orion.Netdev.Probe

open Orion.Lib Orion.Pci

variable {σ : Type} (D : Devices σ)

/-! ## The drivers with ports -/

/-- How a driver begins: it finds its adapter, reads where the registers are, and switches the adapter on. -/
def probe {β : Type} (find : StateM (Bridge σ) (Option PciDevice))
    (base : PciDevice → StateM (Bridge σ) (Option β)) (bits : BitVec 16) : StateM (Bridge σ) (Option β) := do
  match ← find with
  | none => return none
  | some d =>
    match ← base d with
    | none => return none
    | some b =>
      pciEnable D (some d) bits
      return some b

/-- The ports of an adapter, from its first base register. -/
def portBase (d : PciDevice) : StateM (Bridge σ) (Option (BitVec 16)) := do
  let bar ← pciBar32 D (some d) 0
  return if bar &&& 1#32 = 0 then none else some ((bar &&& ~~~3#32).setWidth 16)

def portProbe (vendor device : BitVec 16) : StateM (Bridge σ) (Option (BitVec 16)) :=
  probe D (pciFind D vendor device) (portBase D) 0x0005

/-- `init` of `netdev_pcnet.c`, up to the adapter's own registers -/
def pcnetProbe : StateM (Bridge σ) (Option (BitVec 16)) := portProbe D 0x1022 0x2000

/-- The same of `netdev_virtio.c` -/
def virtioProbe : StateM (Bridge σ) (Option (BitVec 16)) := portProbe D 0x1af4 0x1000

/-- The same of `netdev_rtl8139.c` -/
def rtl8139Probe : StateM (Bridge σ) (Option (BitVec 16)) := portProbe D 0x10ec 0x8139

/-- The memory of an e1000, which must be below 4 GiB. -/
def memoryBase (d : PciDevice) : StateM (Bridge σ) (Option (BitVec 64)) := do
  let bar ← pciBar32 D (some d) 0
  if bar &&& 1#32 ≠ 0 then return none
  else
    let m ← pciBar64 D (some d) 0
    return if m = 0 ∨ m > 0xffffffff#64 then none else some m

def ids : List (BitVec 16 × String) :=
  [(0x100e, "Intel PRO/1000 MT Desktop (82540EM)"),
    (0x1004, "Intel PRO/1000 T Server (82543GC)"),
    (0x100f, "Intel PRO/1000 MT Server (82545EM)"),
    (0x150c, "Intel 82583V Gigabit Network Connection"),
    (0x10d3, "Intel e1000e family (82574L test path)")]

/-- `find` of `netdev_e1000.c`: the adapter, and the model it sets -/
def find : StateM (Bridge σ) (Option (PciDevice × String)) :=
  scanM (fun i => do
    let r ← pciFind D 0x8086 (ids.getD i (0, "")).1
    return Pass.ofOption (r.map fun d => (d, (ids.getD i (0, "")).2))) (List.range ids.length)

/-- `init` of `netdev_e1000.c`, up to the adapter's own registers -/
def e1000Probe : StateM (Bridge σ) (Option (BitVec 64)) :=
  probe D (Option.map Prod.fst <$> find D) (memoryBase D) 0x0006

section Results

variable {D}

theorem probe_cases {β : Type} (bits : BitVec 16) {find : StateM (Bridge σ) (Option PciDevice)}
    {base : PciDevice → StateM (Bridge σ) (Option β)} {found : σ → Option PciDevice}
    {place : PciDevice → σ → Option β} (hfind : Reads Bridge.devices find found)
    (hbase : ∀ d, Reads Bridge.devices (base d) (place d)) (s : Bridge σ) :
    let r := ((probe D find base bits).run s).run
    (r.1 = none ∧ r.2.devices = s.devices ∧ ∀ d, found s.devices = some d → place d s.devices = none) ∨
      ∃ d b w, found s.devices = some d ∧ place d s.devices = some b ∧ r.1 = some b ∧
        r.2.devices = D.store s.devices (addr d.bus d.dev d.fn 4) w ∧
        half false w = half false (D.word s.devices (addr d.bus d.dev d.fn 4)) ||| bits ∧
        half true w = half true (D.word s.devices (addr d.bus d.dev d.fn 4)) := by
  intro r
  obtain ⟨s₁, h₁, hrun⟩ := hfind.andThen (fun x => (probe D (pure x) base bits)) s
  have hr : r = ((probe D (pure (found s.devices)) base bits).run s₁).run := hrun
  cases hd : found s.devices with
  | none =>
    rw [hd] at hr
    rw [hr]
    exact .inl ⟨rfl, h₁, fun d h => by cases h⟩
  | some d =>
    rw [hd] at hr
    obtain ⟨s₂, h₂, hrun⟩ := (hbase d).andThen (fun b => probe D (pure (some d)) (fun _ => pure b) bits) s₁
    have hr : r = ((probe D (pure (some d)) (fun _ => pure (place d s.devices)) bits).run s₂).run := by
      rw [hr, ← h₁]
      exact hrun
    cases hb : place d s.devices with
    | none =>
      rw [hb] at hr
      rw [hr]
      refine .inl ⟨rfl, h₂.trans h₁, fun d' h => ?_⟩
      obtain rfl := Option.some.inj h
      exact hb
    | some b =>
      rw [hb] at hr
      obtain ⟨w, hw, hnew, hold⟩ := pciEnable_stores (D := D) d bits s₂
      rw [h₂, h₁] at hw hnew hold
      rw [hr]
      exact .inr ⟨d, b, w, rfl, hb, rfl, hw, hnew, hold⟩

/-- The place that a search stops at. -/
def Chosen {ι : Type} [LT ι] (P : ι → Prop) (i : ι) : Prop := P i ∧ ∀ j < i, ¬ P j

/-- What `portBase` computes from the registers of the function. -/
def portPlace (w : BitVec 8 → BitVec 32) : Option (BitVec 16) :=
  if w 0x10 &&& 1#32 = 0 then none else some ((w 0x10 &&& ~~~3#32).setWidth 16)

theorem pciBar32_reads (d : PciDevice) {bar : ℕ} (hbar : bar ≤ 5) :
    Reads Bridge.devices (pciBar32 D (some d) bar) fun t =>
      D.word t (addr d.bus d.dev d.fn (BitVec.ofNat 8 (0x10 + bar * 4))) := by
  have hle : ¬ bar > 5 := by omega
  simp only [pciBar32, if_neg hle]
  exact pciRead32_reads

theorem portBase_reads (d : PciDevice) :
    Reads Bridge.devices (portBase D d) fun t => portPlace fun o => D.word t (addr d.bus d.dev d.fn o) :=
  (pciBar32_reads d (by decide)).bind fun _ => .pure _

/-- **The drivers with ports**: they take the first adapter of the bus that can be seen.  Unless its first
base register is for memory, it is switched on, and else nothing is stored. -/
theorem port_probe_enables (s : Bridge σ) (vendor device : BitVec 16) :
    let r := ((portProbe D vendor device).run s).run
    let base := fun p : Place => portPlace fun o => D.word s.devices (p.addr o)
    (r.1 = none ∧ r.2.devices = s.devices ∧ ∀ p, Chosen (Answers D s.devices vendor device) p → base p = none) ∨
      ∃ p b, Chosen (Answers D s.devices vendor device) p ∧ base p = some b ∧ r.1 = some b ∧
        SwitchedOn D s.devices r.2.devices p 0x0005 := by
  intro r base
  have hfirst := search_first D s.devices vendor device
  rcases probe_cases 0x0005 (pciFind_reads D vendor device) portBase_reads s with
    ⟨hnone, hsame, hplace⟩ | ⟨d, b, w, hfound, hplace, hsome, hstored, hnew, hold⟩
  · refine .inl ⟨hnone, hsame, ?_⟩
    rintro p ⟨hp, hbefore⟩
    have hfound : search D s.devices vendor device = some (adapter D s.devices vendor device p) :=
      (hfirst.some_iff _).mpr ⟨p, ⟨hp, rfl⟩, fun q hq x hx => hbefore q hq hx.1⟩
    exact (hplace _ hfound :)
  · obtain ⟨p, ⟨hp, rfl⟩, hbefore⟩ := (hfirst.some_iff d).mp hfound
    exact .inr ⟨p, b, ⟨hp, fun q hq hq' => hbefore q hq _ ⟨hq', rfl⟩⟩, hplace, hsome, w, hstored, hnew, hold⟩

/-! ## The e1000 driver -/

/-- What `memoryBase` computes from the registers of the function. -/
def memoryPlace (w : BitVec 8 → BitVec 32) : Option (BitVec 64) :=
  if w 0x10 &&& 1#32 ≠ 0 then none
  else
    let base := (w 0x10).setWidth 64 &&& ~~~0xf#64
    let m := if (w 0x10 >>> 1) &&& 3#32 = 2#32 then base ||| (w 0x14).setWidth 64 <<< 32 else base
    if m = 0 ∨ m > 0xffffffff#64 then none else some m

theorem pciBar64_reads (d : PciDevice) :
    Reads Bridge.devices (pciBar64 D (some d) 0) fun t =>
      let w := fun o => D.word t (addr d.bus d.dev d.fn o)
      let base := (w 0x10).setWidth 64 &&& ~~~0xf#64
      if (w 0x10 >>> 1) &&& 3#32 = 2#32 then base ||| (w 0x14).setWidth 64 <<< 32 else base := by
  refine (pciBar32_reads d (by decide)).bind (q := fun (lo : BitVec 32) (t : σ) =>
    let base := lo.setWidth 64 &&& ~~~0xf#64
    if (lo >>> 1) &&& 3#32 = 2#32 then
      base ||| (D.word t (addr d.bus d.dev d.fn 0x14)).setWidth 64 <<< 32
    else base) ?_
  intro lo
  by_cases hkind : (lo >>> 1) &&& 3#32 = 2#32
  · simp only [hkind]
    exact (pciBar32_reads d (by decide)).bind fun hi => .pure _
  · simp only [hkind]
    exact .pure _

theorem memoryBase_reads (d : PciDevice) :
    Reads Bridge.devices (memoryBase D d) fun t => memoryPlace fun o => D.word t (addr d.bus d.dev d.fn o) := by
  refine (pciBar32_reads d (by decide)).bind (q := fun (bar : BitVec 32) (t : σ) =>
    let w := fun o => D.word t (addr d.bus d.dev d.fn o)
    if bar &&& 1#32 ≠ 0 then none
    else
      let base := (w 0x10).setWidth 64 &&& ~~~0xf#64
      let m := if (w 0x10 >>> 1) &&& 3#32 = 2#32 then base ||| (w 0x14).setWidth 64 <<< 32 else base
      if m = 0 ∨ m > 0xffffffff#64 then none else some m) ?_
  intro bar
  exact .ite (.pure _) ((pciBar64_reads d).bind fun m => .pure _)

theorem low_base (lo : BitVec 32) : ¬ lo.setWidth 64 &&& ~~~0xf#64 > 0xffffffff#64 := by
  have hle : (lo.setWidth 64 &&& ~~~0xf#64).toNat ≤ lo.toNat := by
    rw [BitVec.toNat_and]
    refine Nat.and_le_left.trans ?_
    rw [BitVec.toNat_setWidth]
    exact Nat.mod_le _ _
  have hlt := lo.isLt
  intro h
  have h := BitVec.lt_def.mp h
  have hval : (0xffffffff#64 : BitVec 64).toNat = 2 ^ 32 - 1 := rfl
  omega

theorem high_base (base : BitVec 64) {hi : BitVec 32} (h : hi ≠ 0) :
    base ||| hi.setWidth 64 <<< 32 > 0xffffffff#64 := by
  have hpos : 0 < hi.toNat := by
    refine Nat.pos_of_ne_zero fun hzero => h ?_
    exact BitVec.eq_of_toNat_eq hzero
  have hlt := hi.isLt
  have hshift : ((hi.setWidth 64) <<< 32).toNat = hi.toNat * 2 ^ 32 := by
    rw [BitVec.toNat_shiftLeft, BitVec.toNat_setWidth, Nat.shiftLeft_eq, Nat.mod_eq_of_lt (a := hi.toNat) (by omega),
      Nat.mod_eq_of_lt (by omega)]
  have hle : ((hi.setWidth 64) <<< 32).toNat ≤ (base ||| hi.setWidth 64 <<< 32).toNat := by
    rw [BitVec.toNat_or]
    exact Nat.right_le_or
  have hval : (0xffffffff#64 : BitVec 64).toNat = 2 ^ 32 - 1 := rfl
  exact BitVec.lt_def.mpr (by omega)

theorem accept_iff {base m : BitVec 64} (hlow : ¬ base > 0xffffffff#64) :
    (if base = 0 ∨ base > 0xffffffff#64 then none else some base) = some m ↔ m = base ∧ m ≠ 0 := by
  by_cases hzero : base = 0
  · rw [if_pos (.inl hzero)]
    exact ⟨fun h => (by cases h), fun h => absurd (h.1.trans hzero) h.2⟩
  · rw [if_neg (not_or.mpr ⟨hzero, hlow⟩)]
    constructor
    · intro h
      obtain rfl := Option.some.inj h
      exact ⟨rfl, hzero⟩
    · intro h
      exact congrArg some h.1.symm

/-- The memory is aligned and below 4 GiB; the upper half of a long base register is zero. -/
theorem memoryPlace_eq_some_iff {w : BitVec 8 → BitVec 32} {m : BitVec 64} :
    memoryPlace w = some m ↔ w 0x10 &&& 1#32 = 0 ∧ m = (w 0x10).setWidth 64 &&& ~~~0xf#64 ∧ m ≠ 0 ∧
      ((w 0x10 >>> 1) &&& 3#32 = 2#32 → w 0x14 = 0) := by
  have hlow := low_base (w 0x10)
  rw [memoryPlace]
  generalize (w 0x10).setWidth 64 &&& ~~~0xf#64 = base at *
  by_cases hio : w 0x10 &&& 1#32 = 0
  · rw [if_neg (not_not_intro hio)]
    by_cases hlong : (w 0x10 >>> 1) &&& 3#32 = 2#32
    · simp only [if_pos hlong]
      by_cases hzero : w 0x14 = 0
      · have hor : base ||| (w 0x14).setWidth 64 <<< 32 = base := by
          rw [hzero]
          simp
        rw [hor, accept_iff hlow]
        exact ⟨fun h => ⟨hio, h.1, h.2, fun _ => hzero⟩, fun h => ⟨h.2.1, h.2.2.1⟩⟩
      · have hhigh := high_base base hzero
        rw [if_pos (.inr hhigh)]
        exact ⟨fun h => (by cases h), fun h => absurd (h.2.2.2 hlong) hzero⟩
    · simp only [if_neg hlong]
      rw [accept_iff hlow]
      exact ⟨fun h => ⟨hio, h.1, h.2, fun h => absurd h hlong⟩, fun h => ⟨h.2.1, h.2.2.1⟩⟩
  · rw [if_pos hio]
    exact ⟨fun h => (by cases h), fun h => absurd h.1 hio⟩

theorem find_reads : Reads Bridge.devices (find D) fun t =>
    scan (fun i => Pass.ofOption ((search D t 0x8086 (ids.getD i (0, "")).1).map fun x => (x, (ids.getD i (0, "")).2)))
      (List.range ids.length) :=
  .scanM (fun i => (pciFind_reads D 0x8086 (ids.getD i (0, "")).1).bind fun _ => .pure _) _

/-- An adapter at `q.2` with the id that is in the table at `q.1`. -/
def Candidate (D : Devices σ) (t : σ) (q : ℕ ×ₗ Place) : Prop :=
  (ofLex q).1 < ids.length ∧ Answers D t 0x8086 (ids.getD (ofLex q).1 (0, "")).1 (ofLex q).2

/-- The table comes before the bus: an id further down is only looked for where no adapter has one above. -/
theorem find_first (s : Bridge σ) :
    First (fun q x => Candidate D s.devices q ∧
      x = (adapter D s.devices 0x8086 (ids.getD (ofLex q).1 (0, "")).1 (ofLex q).2, (ids.getD (ofLex q).1 (0, "")).2))
      ((find D).run s).run.1 := by
  rw [find_reads.result s]
  have hloops := First.nested List.pairwise_lt_range (l := List.range ids.length) fun i _ =>
    (search_first D s.devices 0x8086 (ids.getD i (0, "")).1).map fun x => (x, (ids.getD i (0, "")).2)
  refine hloops.congr fun q x => ?_
  constructor
  · rintro ⟨hi, d, ⟨hans, rfl⟩, rfl⟩
    exact ⟨⟨List.mem_range.mp hi, hans⟩, rfl⟩
  · rintro ⟨⟨hi, hans⟩, rfl⟩
    exact ⟨List.mem_range.mpr hi, _, ⟨hans, rfl⟩, rfl⟩

/-- **The e1000 driver** takes the first candidate in the order of its table. -/
theorem e1000_probe_enables (s : Bridge σ) :
    let r := ((e1000Probe D).run s).run
    let base := fun q : ℕ ×ₗ Place => memoryPlace fun o => D.word s.devices ((ofLex q).2.addr o)
    (r.1 = none ∧ r.2.devices = s.devices ∧ ∀ q, Chosen (Candidate D s.devices) q → base q = none) ∨
      ∃ q m, Chosen (Candidate D s.devices) q ∧ base q = some m ∧ r.1 = some m ∧
        m = (D.word s.devices ((ofLex q).2.addr 0x10)).setWidth 64 &&& ~~~0xf#64 ∧ m ≠ 0 ∧
        SwitchedOn D s.devices r.2.devices (ofLex q).2 0x0006 := by
  intro r base
  have hfirst := (find_first (D := D) s).map Prod.fst
  have hreads := (find_reads (D := D)).map (Option.map Prod.fst)
  rw [find_reads.result s] at hfirst
  rcases probe_cases 0x0006 hreads memoryBase_reads s with
    ⟨hnone, hsame, hplace⟩ | ⟨d, b, w, hfound, hplace, hsome, hstored, hnew, hold⟩
  · refine .inl ⟨hnone, hsame, ?_⟩
    rintro q ⟨hq, hbefore⟩
    have hfound := (hfirst.some_iff _).mpr ⟨q, ⟨_, ⟨hq, rfl⟩, rfl⟩, fun j hj x ⟨_, hx, _⟩ => hbefore j hj hx.1⟩
    exact (hplace _ hfound :)
  · obtain ⟨q, ⟨_, ⟨hq, rfl⟩, rfl⟩, hbefore⟩ := (hfirst.some_iff d).mp hfound
    obtain ⟨-, haligned, hnonzero, -⟩ := memoryPlace_eq_some_iff.mp hplace
    exact .inr ⟨q, b, ⟨hq, fun j hj hj' => hbefore j hj _ ⟨_, ⟨hj', rfl⟩, rfl⟩⟩, hplace, hsome, haligned, hnonzero,
      w, hstored, hnew, hold⟩

end Results

end Orion.Netdev.Probe
