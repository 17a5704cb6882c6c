import Mathlib.Algebra.Ring.Nat
import Orion.Lib.Scan

/-!
# The PCI bus (`kernel/pci.c`)

The configuration space is behind two ports: a word written to the first chooses the register that the
second reads and writes.

* `addr_eq_iff`, `Place.addr_eq_iff` — different registers have different addresses;
* `pciWrite16_stores` — a half of a register is written by one store that keeps the other half;
* `pci_find_first` — the search finds the first function, in the order of bus, device and function, that
  has the ids and can be seen, and it changes no device;
* `SwitchedOn` — what `pci_enable` does to the devices.
-/

namespace Orion.Pci

open Orion.Lib

/-! ## The two ports -/

/-- What the devices on the bus do: the register at an address, and what a store makes of them. -/
structure Devices (σ : Type) where
  word : σ → BitVec 32 → BitVec 32
  store : σ → BitVec 32 → BitVec 32 → σ

/-- The bridge keeps the address, the devices their registers. -/
structure Bridge (σ : Type) where
  address : BitVec 32
  devices : σ

variable {σ : Type} (D : Devices σ)

/-- `outl` to port `0xcf8` -/
def outAddress (a : BitVec 32) : StateM (Bridge σ) Unit := modify fun s => { s with address := a }

/-- `inl` from port `0xcfc` -/
def inData : StateM (Bridge σ) (BitVec 32) := do
  let s ← get
  return D.word s.devices s.address

/-- `outl` to port `0xcfc` -/
def outData (v : BitVec 32) : StateM (Bridge σ) Unit :=
  modify fun s => { s with devices := D.store s.devices s.address v }

def addr (b d f o : BitVec 8) : BitVec 32 :=
  0x80000000#32 ||| b.setWidth 32 <<< 16 ||| d.setWidth 32 <<< 11 ||| f.setWidth 32 <<< 8 |||
    (o.setWidth 32 &&& 0xfc#32)

def pciRead32 (b d f o : BitVec 8) : StateM (Bridge σ) (BitVec 32) := do
  outAddress (addr b d f o)
  inData D

def pciWrite32 (b d f o : BitVec 8) (v : BitVec 32) : StateM (Bridge σ) Unit := do
  outAddress (addr b d f o)
  outData D v

/-- The shift `(o & 2) * 8` -/
def halfShift (o : BitVec 8) : BitVec 32 := (o.setWidth 32 &&& 2#32) * 8#32

def pciRead16 (b d f o : BitVec 8) : StateM (Bridge σ) (BitVec 16) := do
  let v ← pciRead32 D b d f o
  return (v >>> halfShift o).setWidth 16

def pciWrite16 (b d f o : BitVec 8) (v : BitVec 16) : StateM (Bridge σ) Unit := do
  let a := o &&& 0xfc#8
  let x ← pciRead32 D b d f a
  let s := halfShift o
  let x := (x &&& ~~~(0xffff#32 <<< s)) ||| (v.setWidth 32 <<< s)
  pciWrite32 D b d f a x

structure PciDevice where
  bus : BitVec 8
  dev : BitVec 8
  fn : BitVec 8
  vendor : BitVec 16
  device : BitVec 16
  revision : BitVec 8
  progIf : BitVec 8
  subclass : BitVec 8
  classCode : BitVec 8
  deriving Repr, DecidableEq

/-- `none` is the null pointer. -/
def pciBar32 (d : Option PciDevice) (bar : ℕ) : StateM (Bridge σ) (BitVec 32) :=
  match d with
  | none => return 0
  | some d => if bar > 5 then return 0 else pciRead32 D d.bus d.dev d.fn (BitVec.ofNat 8 (0x10 + bar * 4))

def pciBar64 (d : Option PciDevice) (bar : ℕ) : StateM (Bridge σ) (BitVec 64) := do
  let lo ← pciBar32 D d bar
  let base := lo.setWidth 64 &&& ~~~0xf#64
  if (lo >>> 1) &&& 3#32 = 2#32 ∧ bar < 5 then do
    let hi ← pciBar32 D d (bar + 1)
    return base ||| hi.setWidth 64 <<< 32
  else return base

def pciEnable (d : Option PciDevice) (bits : BitVec 16) : StateM (Bridge σ) Unit :=
  match d with
  | none => return ()
  | some d => do
    let c ← pciRead16 D d.bus d.dev d.fn 0x04
    pciWrite16 D d.bus d.dev d.fn 0x04 (c ||| bits)

/-! ## Halves of a register -/

/-- The upper half if `hi`, and else the lower. -/
def half (hi : Bool) (w : BitVec 32) : BitVec 16 := (w >>> if hi then 16 else 0).setWidth 16

theorem halfShift_eq (o : BitVec 8) : halfShift o = if o.getLsbD 1 then 16#32 else 0#32 := by
  have htwo : (2#32 : BitVec 32) = BitVec.twoPow 32 1 := by decide
  rw [halfShift, htwo, BitVec.and_twoPow, BitVec.getLsbD_setWidth]
  cases o.getLsbD 1 <;> decide

theorem ext_half {w : BitVec 32} (hi : Bool) {v : BitVec 16}
    (h : ∀ i < 16, w.getLsbD ((if hi then 16 else 0) + i) = v.getLsbD i) : half hi w = v := by
  apply BitVec.eq_of_getLsbD_eq
  intro i hlt
  rw [half, BitVec.getLsbD_setWidth, BitVec.getLsbD_ushiftRight, h i hlt]
  simp [hlt]

/-- The word that `pci_write16` stores, where the half begins at bit `s`. -/
def written (x : BitVec 32) (s : ℕ) (v : BitVec 16) : BitVec 32 :=
  (x &&& ~~~(0xffff#32 <<< s)) ||| (v.setWidth 32 <<< s)

theorem written_getLsbD (x : BitVec 32) (s : ℕ) (v : BitVec 16) {i : ℕ} (hi : i < 32) :
    (written x s v).getLsbD i = if s ≤ i ∧ i < s + 16 then v.getLsbD (i - s) else x.getLsbD i := by
  have hmask : 0xffff#32 = (BitVec.allOnes 16).setWidth 32 := by decide
  rw [written, hmask, BitVec.getLsbD_or, BitVec.getLsbD_and, BitVec.getLsbD_not, BitVec.getLsbD_shiftLeft,
    BitVec.getLsbD_shiftLeft, BitVec.getLsbD_setWidth, BitVec.getLsbD_setWidth, BitVec.getLsbD_allOnes]
  by_cases hlow : s ≤ i
  · by_cases hhigh : i < s + 16
    · have hin : i - s < 16 := by omega
      have hin' : i - s < 32 := by omega
      have hnot : ¬ i < s := by omega
      simp [hi, hlow, hhigh, hin, hin', hnot]
    · have hout : ¬ i - s < 16 := by omega
      have hzero : v.getLsbD (i - s) = false := BitVec.getLsbD_of_ge v (i - s) (by omega)
      simp [hi, hhigh, hout, hzero]
  · have hlt : i < s := by omega
    simp [hi, hlow, hlt]

theorem half_written (x : BitVec 32) (hi : Bool) (v : BitVec 16) :
    half hi (written x (if hi then 16 else 0) v) = v := by
  apply ext_half
  intro i hlt
  cases hi with
  | false =>
    rw [written_getLsbD x _ v (by simp; omega), if_pos (by simp; omega)]
    simp
  | true =>
    rw [written_getLsbD x _ v (by simp; omega), if_pos (by simp; omega)]
    simp

/-- The other half stays. -/
theorem half_kept (x : BitVec 32) (hi : Bool) (v : BitVec 16) :
    half (!hi) (written x (if hi then 16 else 0) v) = half (!hi) x := by
  apply ext_half
  intro i hlt
  rw [half, BitVec.getLsbD_setWidth, BitVec.getLsbD_ushiftRight]
  cases hi with
  | false =>
    rw [written_getLsbD x _ v (by simp; omega), if_neg (by simp)]
    simp [hlt]
  | true =>
    rw [written_getLsbD x _ v (by simp; omega), if_neg (by simp; omega)]
    simp [hlt]

/-! ## The address -/

theorem shiftLeft_or_toNat {a x : BitVec 32} {i : ℕ} (hx : x.toNat < 2 ^ i) (ha : a.toNat <<< i < 2 ^ 32) :
    (a <<< i ||| x).toNat = a.toNat * 2 ^ i + x.toNat := by
  rw [BitVec.toNat_or, BitVec.toNat_shiftLeft, Nat.mod_eq_of_lt ha, ← Nat.shiftLeft_add_eq_or_of_lt hx,
    Nat.shiftLeft_eq]

theorem addr_toNat {b d f o : BitVec 8} (hd : d.toNat < 32) (hf : f.toNat < 8) :
    (addr b d f o).toNat = 2 ^ 31 + b.toNat * 2 ^ 16 + d.toNat * 2 ^ 11 + f.toNat * 2 ^ 8 + (o &&& 0xfc#8).toNat := by
  have htop : (0x80000000#32 : BitVec 32) = 1#32 <<< 31 := by decide
  have hwide : ∀ x : BitVec 8, (x.setWidth 32).toNat = x.toNat := by
    intro x
    have hx := x.isLt
    rw [BitVec.toNat_setWidth, Nat.mod_eq_of_lt (by omega)]
  have ho : (o.setWidth 32 &&& 0xfc#32).toNat = (o &&& 0xfc#8).toNat := by
    rw [BitVec.toNat_and, BitVec.toNat_and, hwide]
    rfl
  have holt : (o.setWidth 32 &&& 0xfc#32).toNat < 2 ^ 8 := by
    rw [ho]
    exact BitVec.isLt _
  have hb := b.isLt
  rw [addr, BitVec.or_assoc, BitVec.or_assoc, BitVec.or_assoc, htop]
  have h8 := shiftLeft_or_toNat (a := f.setWidth 32) (i := 8) holt (by rw [hwide, Nat.shiftLeft_eq]; omega)
  rw [hwide] at h8
  have h11 := shiftLeft_or_toNat (a := d.setWidth 32) (i := 11) (x := f.setWidth 32 <<< 8 ||| (o.setWidth 32 &&& 0xfc#32))
    (by rw [h8]; omega) (by rw [hwide, Nat.shiftLeft_eq]; omega)
  rw [hwide, h8] at h11
  have h16 := shiftLeft_or_toNat (a := b.setWidth 32) (i := 16)
    (x := d.setWidth 32 <<< 11 ||| (f.setWidth 32 <<< 8 ||| (o.setWidth 32 &&& 0xfc#32)))
    (by rw [h11]; omega) (by rw [hwide, Nat.shiftLeft_eq]; omega)
  rw [hwide, h11] at h16
  rw [shiftLeft_or_toNat (by rw [h16]; omega) (by decide), h16, ho]
  simp
  omega

/-- Different registers have different addresses. -/
theorem addr_eq_iff {b d f o b' d' f' o' : BitVec 8} (hd : d.toNat < 32) (hf : f.toNat < 8) (hd' : d'.toNat < 32)
    (hf' : f'.toNat < 8) :
    addr b d f o = addr b' d' f' o' ↔ b = b' ∧ d = d' ∧ f = f' ∧ o &&& 0xfc#8 = o' &&& 0xfc#8 := by
  constructor
  · intro h
    have hnat := congrArg BitVec.toNat h
    rw [addr_toNat hd hf, addr_toNat hd' hf'] at hnat
    have ho : (o &&& 0xfc#8).toNat < 2 ^ 8 := BitVec.isLt _
    have ho' : (o' &&& 0xfc#8).toNat < 2 ^ 8 := BitVec.isLt _
    refine ⟨BitVec.eq_of_toNat_eq ?_, BitVec.eq_of_toNat_eq ?_, BitVec.eq_of_toNat_eq ?_, BitVec.eq_of_toNat_eq ?_⟩ <;>
      omega
  · rintro ⟨rfl, rfl, rfl, ho⟩
    apply BitVec.eq_of_toNat_eq
    rw [addr_toNat hd hf, addr_toNat hd hf, ho]

/-! ## What the operations read and store -/

section Operations

variable {D} {b d f o : BitVec 8}

theorem pciRead32_reads : Reads Bridge.devices (pciRead32 D b d f o) fun t => D.word t (addr b d f o) :=
  ⟨fun _ => rfl, fun _ => rfl⟩

theorem shift_half (o : BitVec 8) : (halfShift o).toNat = if o.getLsbD 1 then 16 else 0 := by
  rw [halfShift_eq]
  cases o.getLsbD 1 <;> rfl

theorem pciRead16_reads :
    Reads Bridge.devices (pciRead16 D b d f o) fun t => half (o.getLsbD 1) (D.word t (addr b d f o)) := by
  refine pciRead32_reads.bind (q := fun v _ => half (o.getLsbD 1) v) ?_
  intro v
  rw [BitVec.ushiftRight_eq', shift_half]
  exact .pure _

theorem addr_mask : addr b d f (o &&& 0xfc#8) = addr b d f o := by
  have hmask : (o &&& 0xfc#8).setWidth 32 &&& 0xfc#32 = o.setWidth 32 &&& 0xfc#32 := by
    rw [BitVec.setWidth_and, BitVec.and_assoc]
    rfl
  rw [addr, hmask]
  rfl

theorem pciWrite16_devices (v : BitVec 16) (s : Bridge σ) :
    ((pciWrite16 D b d f o v).run s).run.2.devices = D.store s.devices (addr b d f o)
      (written (D.word s.devices (addr b d f o)) (if o.getLsbD 1 then 16 else 0) v) := by
  rw [← shift_half, ← addr_mask]
  rfl

/-- **A half of a register** is written by one store that keeps the other half. -/
theorem pciWrite16_stores (v : BitVec 16) (s : Bridge σ) :
    ∃ w, ((pciWrite16 D b d f o v).run s).run.2.devices = D.store s.devices (addr b d f o) w ∧
      half (o.getLsbD 1) w = v ∧ half (!o.getLsbD 1) w = half (!o.getLsbD 1) (D.word s.devices (addr b d f o)) :=
  ⟨_, pciWrite16_devices v s, half_written _ _ v, half_kept _ _ v⟩

/-- The command register is switched on, and the status register is written as it was read. -/
theorem pciEnable_stores (x : PciDevice) (bits : BitVec 16) (s : Bridge σ) :
    ∃ w, ((pciEnable D (some x) bits).run s).run.2.devices = D.store s.devices (addr x.bus x.dev x.fn 4) w ∧
      half false w = half false (D.word s.devices (addr x.bus x.dev x.fn 4)) ||| bits ∧
      half true w = half true (D.word s.devices (addr x.bus x.dev x.fn 4)) := by
  have hread := pciRead16_reads (D := D) (b := x.bus) (d := x.dev) (f := x.fn) (o := 4)
  obtain ⟨s', hs', hrun⟩ := hread.andThen (fun c => pciWrite16 D x.bus x.dev x.fn 4 (c ||| bits)) s
  obtain ⟨w, hw, hnew, hold⟩ := pciWrite16_stores (D := D) (b := x.bus) (d := x.dev) (f := x.fn) (o := 4)
    (half false (D.word s.devices (addr x.bus x.dev x.fn 4)) ||| bits) s'
  rw [hs'] at hw hold
  refine ⟨w, ?_, hnew, hold⟩
  rw [← hw]
  exact congrArg (fun r => r.2.devices) hrun

end Operations

/-! ## The search -/

/-- One pass of the innermost loop of `pci_find`. -/
def functionPass (vendor device : BitVec 16) (b d f : ℕ) : StateM (Bridge σ) (Pass PciDevice) := do
  let bus := BitVec.ofNat 8 b
  let dev := BitVec.ofNat 8 d
  let fn := BitVec.ofNat 8 f
  let id ← pciRead32 D bus dev fn 0
  if id &&& 0xffff#32 = 0xffff#32 then
    return if f = 0 then .leave else .next
  else if id.setWidth 16 = vendor ∧ (id >>> 16).setWidth 16 = device then do
    let cc ← pciRead32 D bus dev fn 8
    return .found {
      bus, dev, fn, vendor, device
      revision := cc.setWidth 8
      progIf := (cc >>> 8).setWidth 8
      subclass := (cc >>> 16).setWidth 8
      classCode := (cc >>> 24).setWidth 8 }
  else if f = 0 then do
    let h ← pciRead32 D bus dev 0 0x0c
    return if (h >>> 16) &&& 0x80#32 = 0 then .leave else .next
  else return .next

/-- The three nested loops.  A `return` ends them all, a `break` only the innermost. -/
def pciFind (vendor device : BitVec 16) : StateM (Bridge σ) (Option PciDevice) :=
  scanM (fun b => Pass.ofOption <$>
    scanM (fun d => Pass.ofOption <$>
      scanM (fun f => functionPass D vendor device b d f) (List.range 8)) (List.range 32)) (List.range 256)

/-! ## What a pass finds -/

/-- A function that is there answers with a vendor. -/
def Present (w : BitVec 8 → BitVec 32) : Prop := w 0 &&& 0xffff#32 ≠ 0xffff#32

def HasIds (vendor device : BitVec 16) (w : BitVec 8 → BitVec 32) : Prop :=
  Present w ∧ (w 0).setWidth 16 = vendor ∧ (w 0 >>> 16).setWidth 16 = device

/-- The bit of the header for a device with several functions. -/
def Several (w : BitVec 8 → BitVec 32) : Prop := (w 0x0c >>> 16) &&& 0x80#32 ≠ 0

/-- A function other than the first is seen behind a first one that is there and announces it. -/
def Seen (w : ℕ → BitVec 8 → BitVec 32) (f : ℕ) : Prop := f = 0 ∨ Present (w 0) ∧ Several (w 0)

/-- What `pci_find` fills in. -/
def describe (vendor device : BitVec 16) (b d f : ℕ) (w : BitVec 8 → BitVec 32) : PciDevice where
  bus := BitVec.ofNat 8 b
  dev := BitVec.ofNat 8 d
  fn := BitVec.ofNat 8 f
  vendor := vendor
  device := device
  revision := (w 8).setWidth 8
  progIf := (w 8 >>> 8).setWidth 8
  subclass := (w 8 >>> 16).setWidth 8
  classCode := (w 8 >>> 24).setWidth 8

/-- The pass over the registers `w` of the functions of a device. -/
def pass (vendor device : BitVec 16) (b d : ℕ) (w : ℕ → BitVec 8 → BitVec 32) (f : ℕ) : Pass PciDevice :=
  if w f 0 &&& 0xffff#32 = 0xffff#32 then (if f = 0 then .leave else .next)
  else if (w f 0).setWidth 16 = vendor ∧ (w f 0 >>> 16).setWidth 16 = device then
    .found (describe vendor device b d f (w f))
  else if f = 0 then (if (w 0 0x0c >>> 16) &&& 0x80#32 = 0 then .leave else .next)
  else .next

section Pass

variable {vendor device : BitVec 16} {b d f : ℕ} {w : ℕ → BitVec 8 → BitVec 32}

theorem pass_found_iff {x : PciDevice} :
    pass vendor device b d w f = .found x ↔ HasIds vendor device (w f) ∧ x = describe vendor device b d f (w f) := by
  by_cases hpresent : w f 0 &&& 0xffff#32 = 0xffff#32
  · have hno : ¬ HasIds vendor device (w f) := fun h => h.1 hpresent
    rw [pass, if_pos hpresent]
    constructor
    · intro h
      split at h <;> cases h
    · intro h
      exact absurd h.1 hno
  · rw [pass, if_neg hpresent]
    by_cases hids : (w f 0).setWidth 16 = vendor ∧ (w f 0 >>> 16).setWidth 16 = device
    · rw [if_pos hids]
      exact ⟨fun h => ⟨⟨hpresent, hids⟩, (Pass.found.inj h).symm⟩, fun h => congrArg Pass.found h.2.symm⟩
    · rw [if_neg hids]
      constructor
      · intro h
        split at h
        · split at h <;> cases h
        · cases h
      · intro h
        exact absurd h.1.2 hids

theorem pass_leave_iff : pass vendor device b d w f = .leave ↔
    f = 0 ∧ ¬ HasIds vendor device (w f) ∧ ¬ (Present (w 0) ∧ Several (w 0)) := by
  by_cases hpresent : w f 0 &&& 0xffff#32 = 0xffff#32
  · have hno : ¬ HasIds vendor device (w f) := fun h => h.1 hpresent
    rw [pass, if_pos hpresent]
    by_cases hf : f = 0
    · subst hf
      exact ⟨fun _ => ⟨rfl, hno, fun h => h.1 hpresent⟩, fun _ => if_pos rfl⟩
    · rw [if_neg hf]
      exact ⟨fun h => (by cases h), fun h => absurd h.1 hf⟩
  · rw [pass, if_neg hpresent]
    by_cases hids : (w f 0).setWidth 16 = vendor ∧ (w f 0 >>> 16).setWidth 16 = device
    · rw [if_pos hids]
      exact ⟨fun h => (by cases h), fun h => absurd ⟨hpresent, hids⟩ h.2.1⟩
    · have hno : ¬ HasIds vendor device (w f) := fun h => hids h.2
      rw [if_neg hids]
      by_cases hf : f = 0
      · subst hf
        rw [if_pos rfl]
        by_cases hone : (w 0 0x0c >>> 16) &&& 0x80#32 = 0
        · rw [if_pos hone]
          exact ⟨fun _ => ⟨rfl, hno, fun h => h.2 hone⟩, fun _ => rfl⟩
        · rw [if_neg hone]
          exact ⟨fun h => (by cases h), fun h => absurd ⟨hpresent, hone⟩ h.2.2⟩
      · rw [if_neg hf]
        exact ⟨fun h => (by cases h), fun h => absurd h.1 hf⟩

/-- The loop over the functions of a device stops at the first that has the ids and is seen. -/
theorem functions_first (vendor device : BitVec 16) (b d : ℕ) (w : ℕ → BitVec 8 → BitVec 32) :
    First (fun f x => f < 8 ∧ HasIds vendor device (w f) ∧ Seen w f ∧ x = describe vendor device b d f (w f))
      (scan (pass vendor device b d w) (List.range 8)) := by
  refine (scan_first List.pairwise_lt_range _).restrict ?_ ?_
  · rintro f x ⟨hf, hids, hseen, hx⟩
    refine ⟨List.mem_range.mpr hf, pass_found_iff.mpr ⟨hids, hx⟩, ?_⟩
    intro g _ hg hleave
    obtain ⟨hzero, -, hhidden⟩ := pass_leave_iff.mp hleave
    rcases hseen with hf0 | hseen
    · omega
    · exact hhidden hseen
  · rintro f x ⟨hf, hfound, hreach⟩
    obtain ⟨hids, hx⟩ := pass_found_iff.mp hfound
    have hf := List.mem_range.mp hf
    by_cases hseen : Seen w f
    · exact .inl ⟨hf, hids, hseen, hx⟩
    · -- only the first function, with the same ids, lets the loop come this far
      have hpos : 0 < f := Nat.pos_of_ne_zero fun h => hseen (.inl h)
      have hzero : HasIds vendor device (w 0) := by
        by_contra hno
        exact hreach 0 (List.mem_range.mpr (by decide)) hpos (pass_leave_iff.mpr ⟨rfl, hno, fun h => hseen (.inr h)⟩)
      exact .inr ⟨0, hpos, _, by decide, hzero, .inl rfl, rfl⟩

end Pass

/-! ## What the search finds -/

/-- Bus, device and function, in the order of the search. -/
abbrev Place := ℕ ×ₗ ℕ ×ₗ ℕ

def Place.bus (p : Place) : ℕ := (ofLex p).1

def Place.dev (p : Place) : ℕ := (ofLex (ofLex p).2).1

def Place.fn (p : Place) : ℕ := (ofLex (ofLex p).2).2

def Place.addr (p : Place) (o : BitVec 8) : BitVec 32 :=
  Pci.addr (BitVec.ofNat 8 p.bus) (BitVec.ofNat 8 p.dev) (BitVec.ofNat 8 p.fn) o

structure Place.OnBus (p : Place) : Prop where
  bus : p.bus < 256
  dev : p.dev < 32
  fn : p.fn < 8

theorem Place.addr_eq_iff {p q : Place} (hp : p.OnBus) (hq : q.OnBus) {o o' : BitVec 8} :
    p.addr o = q.addr o' ↔ p = q ∧ o &&& 0xfc#8 = o' &&& 0xfc#8 := by
  have hnat : ∀ n < 256, (BitVec.ofNat 8 n).toNat = n := fun n hn => by
    rw [BitVec.toNat_ofNat, Nat.mod_eq_of_lt hn]
  have hinj : ∀ m < 256, ∀ n < 256, BitVec.ofNat 8 m = BitVec.ofNat 8 n → m = n := by
    intro m hm n hn h
    rw [← hnat m hm, h, hnat n hn]
  obtain ⟨hb, hd, hf⟩ := hp
  obtain ⟨hb', hd', hf'⟩ := hq
  have hd8 := hnat p.dev (by omega)
  have hf8 := hnat p.fn (by omega)
  have hd8' := hnat q.dev (by omega)
  have hf8' := hnat q.fn (by omega)
  rw [Place.addr, Place.addr, Pci.addr_eq_iff (by omega) (by omega) (by omega) (by omega)]
  constructor
  · rintro ⟨h1, h2, h3, h4⟩
    have h1 : p.bus = q.bus := hinj _ hb _ hb' h1
    have h2 : p.dev = q.dev := hinj _ (by omega) _ (by omega) h2
    have h3 : p.fn = q.fn := hinj _ (by omega) _ (by omega) h3
    exact ⟨Prod.ext h1 (Prod.ext h2 h3), h4⟩
  · rintro ⟨rfl, h4⟩
    exact ⟨rfl, rfl, rfl, h4⟩

/-- The registers of the functions of a device. -/
def registers (t : σ) (b d f : ℕ) (o : BitVec 8) : BitVec 32 :=
  D.word t (addr (BitVec.ofNat 8 b) (BitVec.ofNat 8 d) (BitVec.ofNat 8 f) o)

/-- The function at `p` has the ids, and the search can see it. -/
structure Answers (t : σ) (vendor device : BitVec 16) (p : Place) : Prop where
  onBus : p.OnBus
  ids : HasIds vendor device (registers D t p.bus p.dev p.fn)
  seen : Seen (registers D t p.bus p.dev) p.fn

/-- The adapter at `p`. -/
def adapter (t : σ) (vendor device : BitVec 16) (p : Place) : PciDevice :=
  describe vendor device p.bus p.dev p.fn (registers D t p.bus p.dev p.fn)

theorem functionPass_reads (vendor device : BitVec 16) (b d f : ℕ) :
    Reads Bridge.devices (functionPass D vendor device b d f) fun t => pass vendor device b d (registers D t b d) f := by
  refine pciRead32_reads.bind (q := fun (id : BitVec 32) (t : σ) =>
    if id &&& 0xffff#32 = 0xffff#32 then (if f = 0 then Pass.leave else .next)
    else if id.setWidth 16 = vendor ∧ (id >>> 16).setWidth 16 = device then
      .found (describe vendor device b d f (registers D t b d f))
    else if f = 0 then (if (registers D t b d 0 0x0c >>> 16) &&& 0x80#32 = 0 then .leave else .next)
    else .next) ?_
  intro id
  refine .ite (.pure _) (.ite ?_ (.ite ?_ (.pure _)))
  · exact pciRead32_reads.bind fun cc => .pure _
  · exact pciRead32_reads.bind fun h => .pure _

/-- What `pci_find` computes from the registers. -/
def search (t : σ) (vendor device : BitVec 16) : Option PciDevice :=
  scan (fun b => Pass.ofOption
    (scan (fun d => Pass.ofOption
      (scan (pass vendor device b d (registers D t b d)) (List.range 8))) (List.range 32))) (List.range 256)

theorem pciFind_reads (vendor device : BitVec 16) :
    Reads Bridge.devices (pciFind D vendor device) fun t => search D t vendor device :=
  .scanM (fun b => (Reads.scanM (fun d => (Reads.scanM (fun f => functionPass_reads D vendor device b d f) _).map _)
    _).map _) _

theorem search_first (t : σ) (vendor device : BitVec 16) :
    First (fun p x => Answers D t vendor device p ∧ x = adapter D t vendor device p) (search D t vendor device) := by
  have hloops := First.nested List.pairwise_lt_range (l := List.range 256) fun b _ =>
    First.nested List.pairwise_lt_range (l := List.range 32) fun d _ =>
      functions_first vendor device b d (registers D t b d)
  refine hloops.congr fun p x => ?_
  constructor
  · rintro ⟨hb, hd, hf, hids, hseen, hx⟩
    exact ⟨⟨⟨List.mem_range.mp hb, List.mem_range.mp hd, hf⟩, hids, hseen⟩, hx⟩
  · rintro ⟨⟨⟨hb, hd, hf⟩, hids, hseen⟩, hx⟩
    exact ⟨List.mem_range.mpr hb, List.mem_range.mpr hd, hf, hids, hseen, hx⟩

/-- **`pci_find` finds the first function** that has the ids and can be seen, and changes no device. -/
theorem pci_find_first (s : Bridge σ) (vendor device : BitVec 16) :
    let r := ((pciFind D vendor device).run s).run
    r.2.devices = s.devices ∧
      First (fun p x => Answers D s.devices vendor device p ∧ x = adapter D s.devices vendor device p) r.1 := by
  intro r
  refine ⟨(pciFind_reads D vendor device).keeps s, ?_⟩
  show First _ ((pciFind D vendor device).run s).run.1
  rw [(pciFind_reads D vendor device).result s]
  exact search_first D s.devices vendor device

/-- The devices `t'` are `t` after one store: it switches `bits` on in the command register of the function
at `p` and writes the status register as it was read. -/
def SwitchedOn (D : Devices σ) (t t' : σ) (p : Place) (bits : BitVec 16) : Prop :=
  ∃ w, t' = D.store t (p.addr 4) w ∧ half false w = half false (D.word t (p.addr 4)) ||| bits ∧
    half true w = half true (D.word t (p.addr 4))

/-- Where a store reaches no register but its own, all the others on the bus are as they were. -/
theorem SwitchedOn.keeps_others {D : Devices σ} {t t' : σ} {p q : Place} {bits : BitVec 16}
    (hstore : ∀ t a v a', a' ≠ a → D.word (D.store t a v) a' = D.word t a') (h : SwitchedOn D t t' p bits)
    (hp : p.OnBus) (hq : q.OnBus) {o : BitVec 8} (hother : ¬ (q = p ∧ o &&& 0xfc#8 = 4)) :
    D.word t' (q.addr o) = D.word t (q.addr o) := by
  obtain ⟨w, rfl, -, -⟩ := h
  refine hstore t _ w _ fun hsame => hother ?_
  exact (Place.addr_eq_iff hq hp).mp hsame

end Orion.Pci
