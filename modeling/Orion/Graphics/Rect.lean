import Orion.Lib.Filling
import Mathlib.Tactic.Ring

/-!
# Rectangles (`kernel/graphics.c`)

A cell of the framebuffer is 16 or 32 bits, and the cells of a line are followed by those between the lines.
-/

namespace Orion.Graphics

open Orion.Lib

/-! ## The source -/

structure BootInfo where
  framebufferBase : UInt64
  width : UInt32
  height : UInt32
  pixelsPerScanline : UInt32
  pixelFormat : UInt32
  deriving Repr, DecidableEq

/-- The cells from `framebuffer_base` on, by their index; one of 16 bits has its upper half clear. -/
abbrev Framebuffer := ℕ → UInt32

namespace BootInfo

def rgb565Mode (bi : BootInfo) : Bool := bi.pixelFormat = 0x100

def packPixel (bi : BootInfo) (rgb : UInt32) : UInt32 :=
  let r := (rgb >>> 16) &&& 255
  let g := (rgb >>> 8) &&& 255
  let b := rgb &&& 255
  if bi.rgb565Mode then ((r >>> 3) <<< 11) ||| ((g >>> 2) <<< 5) ||| (b >>> 3)
  else if bi.pixelFormat = 0 then (b <<< 16) ||| (g <<< 8) ||| r
  else (r <<< 16) ||| (g <<< 8) ||| b

/-- What a cell holds after a store. -/
def stored (bi : BootInfo) (v : UInt32) : UInt32 := if bi.rgb565Mode then v.toUInt16.toUInt32 else v

end BootInfo

section

-- `g_bi`; it is null until `gfx_init`
variable (info : Option BootInfo)

def gfxReady : Bool := info.any fun bi => bi.framebufferBase ≠ 0

def gfxPixel (fb : Framebuffer) (x y c : UInt32) : Framebuffer :=
  match info with
  | none => fb
  | some bi =>
    if ¬ gfxReady info ∨ x ≥ bi.width ∨ y ≥ bi.height then fb
    else
      let off : UInt64 := y.toUInt64 * bi.pixelsPerScanline.toUInt64 + x.toUInt64
      Function.update fb off.toNat (bi.stored (bi.packPixel c))

def gfxRect (fb : Framebuffer) (x y w h c : UInt32) : Framebuffer :=
  match info with
  | none => fb
  | some bi =>
    if ¬ gfxReady info ∨ x ≥ bi.width ∨ y ≥ bi.height then fb
    else
      let w := if x + w > bi.width then bi.width - x else w
      let h := if y + h > bi.height then bi.height - y else h
      let pc := bi.packPixel c
      (List.range h.toNat).foldl (fun fb yy =>
        -- the line starts that many cells behind the base
        let line := ((y + .ofNat yy).toUInt64 * bi.pixelsPerScanline.toUInt64).toNat + x.toNat
        (List.range w.toNat).foldl (fun fb xx => Function.update fb (line + xx) (bi.stored pc)) fb) fb

def gfxLineH (fb : Framebuffer) (x y w c : UInt32) : Framebuffer := gfxRect info fb x y w 1 c

end

/-! ## The cells -/

/-- The lines do not overlap, and the numbers of the pixels are no signed ones. -/
structure BootInfo.Described (bi : BootInfo) : Prop where
  width_le : bi.width ≤ bi.pixelsPerScanline
  width_lt : bi.width.toNat < 2 ^ 31
  height_lt : bi.height.toNat < 2 ^ 31

/-- The cell of a pixel on the screen. -/
def BootInfo.cell (bi : BootInfo) (i j : ℕ) : Option ℕ :=
  if bi.framebufferBase ≠ 0 ∧ i < bi.width.toNat ∧ j < bi.height.toNat then
    some (j * bi.pixelsPerScanline.toNat + i) else none

theorem BootInfo.of_cell {bi : BootInfo} {i j k : ℕ} (h : bi.cell i j = some k) :
    (bi.framebufferBase ≠ 0 ∧ i < bi.width.toNat ∧ j < bi.height.toNat) ∧
      k = j * bi.pixelsPerScanline.toNat + i := by
  rw [BootInfo.cell] at h
  split at h
  · next hin => exact ⟨hin, (Option.some.inj h).symm⟩
  · cases h

theorem toNat_coordinate {n : ℕ} (h : n < 2 ^ 31) : (UInt32.ofNat n).toNat = n :=
  UInt32.toNat_ofNat_of_lt' (Nat.lt_trans h (by decide))

/-- The cells of a rectangle, line by line. -/
def rectCells (line : ℕ → ℕ) (w h : ℕ) : List ℕ :=
  (List.range h).flatMap fun yy => (List.range w).map fun xx => line yy + xx

section

variable {bi : BootInfo}

/-- What the functions test before they draw. -/
theorem offScreen_iff {x y : UInt32} : (¬ gfxReady (some bi) ∨ x ≥ bi.width ∨ y ≥ bi.height) ↔
    ¬ (bi.framebufferBase ≠ 0 ∧ x.toNat < bi.width.toNat ∧ y.toNat < bi.height.toNat) := by
  have hready : gfxReady (some bi) = true ↔ bi.framebufferBase ≠ 0 := decide_eq_true_iff
  rw [hready, ge_iff_le, ge_iff_le, UInt32.le_iff_toNat_le, UInt32.le_iff_toNat_le, not_and_or, not_and_or,
    not_lt, not_lt]

/-- A line is found without an overflow. -/
theorem line_eq (bi : BootInfo) {j : UInt32} (hj : j.toNat < 2 ^ 31) :
    (j.toUInt64 * bi.pixelsPerScanline.toUInt64).toNat = j.toNat * bi.pixelsPerScanline.toNat ∧
      j.toNat * bi.pixelsPerScanline.toNat < 2 ^ 63 := by
  have hlt : j.toNat * bi.pixelsPerScanline.toNat < 2 ^ 31 * 2 ^ 32 :=
    Nat.mul_lt_mul'' hj bi.pixelsPerScanline.toNat_lt
  rw [UInt64.toNat_mul, UInt32.toNat_toUInt64, UInt32.toNat_toUInt64]
  omega

theorem next_line_eq (bi : BootInfo) {y : UInt32} {yy : ℕ} (h : y.toNat + yy < 2 ^ 31) :
    ((y + .ofNat yy).toUInt64 * bi.pixelsPerScanline.toUInt64).toNat =
      (y.toNat + yy) * bi.pixelsPerScanline.toNat := by
  have hsum : (y + .ofNat yy : UInt32).toNat = y.toNat + yy := by
    rw [UInt32.toNat_add, toNat_coordinate (by omega)]
    omega
  rw [(line_eq bi (by omega)).1, hsum]

variable (hbi : bi.Described)

include hbi

theorem gfxPixel_eq (fb : Framebuffer) (x y c : UInt32) :
    gfxPixel (some bi) fb x y c = put (bi.stored (bi.packPixel c)) fb (bi.cell x.toNat y.toNat) := by
  rw [gfxPixel, BootInfo.cell]
  simp only [offScreen_iff]
  by_cases hon : bi.framebufferBase ≠ 0 ∧ x.toNat < bi.width.toNat ∧ y.toNat < bi.height.toNat
  · obtain ⟨hline, hlt⟩ := line_eq bi (hon.2.2.trans hbi.height_lt)
    have hx := hon.2.1.trans hbi.width_lt
    rw [if_neg (not_not.mpr hon), if_pos hon, UInt64.toNat_add, hline, UInt32.toNat_toUInt64,
      Nat.mod_eq_of_lt (by omega)]
    rfl
  · rw [if_pos hon, if_neg hon]
    rfl

omit hbi in
theorem mem_rectCells {line : ℕ → ℕ} {w h k : ℕ} :
    k ∈ rectCells line w h ↔ ∃ xx yy, xx < w ∧ yy < h ∧ line yy + xx = k := by
  rw [rectCells, List.mem_flatMap]
  constructor
  · rintro ⟨yy, hy, hk⟩
    obtain ⟨xx, hx, rfl⟩ := List.mem_map.mp hk
    exact ⟨xx, yy, List.mem_range.mp hx, List.mem_range.mp hy, rfl⟩
  · rintro ⟨xx, yy, hx, hy, rfl⟩
    exact ⟨yy, List.mem_range.mpr hy, List.mem_map_of_mem (List.mem_range.mpr hx)⟩

omit hbi in
/-- What is left of a length behind the clip. -/
theorem clip_eq {x w width : UInt32} (hx : x.toNat < width.toNat) (hwidth : width.toNat < 2 ^ 31)
    (hw : w.toNat < 2 ^ 31) :
    (if x + w > width then width - x else w).toNat = min w.toNat (width.toNat - x.toNat) := by
  have hsum : (x + w).toNat = x.toNat + w.toNat := by
    rw [UInt32.toNat_add]
    omega
  have hle : x ≤ width := UInt32.le_iff_toNat_le.mpr hx.le
  have hover : x + w > width ↔ width.toNat < x.toNat + w.toNat := by
    rw [gt_iff_lt, UInt32.lt_iff_toNat_lt, hsum]
  split
  · next hgt =>
    have hcut := hover.mp hgt
    rw [UInt32.toNat_sub_of_le _ _ hle]
    omega
  · next hfits =>
    have hroom := mt hover.mpr hfits
    omega

/-- The loops fill the part of the rectangle that is on the screen. -/
theorem gfxRect_eq (fb : Framebuffer) (x y c : UInt32) {w h : UInt32} (hw : w.toNat < 2 ^ 31)
    (hh : h.toNat < 2 ^ 31) :
    ∃ cells : List ℕ,
      gfxRect (some bi) fb x y w h c = filling some (bi.stored (bi.packPixel c)) fb cells ∧
      ∀ k, k ∈ cells ↔ ∃ i j, (x.toNat ≤ i ∧ i < x.toNat + w.toNat) ∧
        (y.toNat ≤ j ∧ j < y.toNat + h.toNat) ∧ bi.cell i j = some k := by
  rw [gfxRect]
  simp only [offScreen_iff]
  by_cases hon : bi.framebufferBase ≠ 0 ∧ x.toNat < bi.width.toNat ∧ y.toNat < bi.height.toNat
  · obtain ⟨hbase, hx, hy⟩ := hon
    have hwclip := clip_eq hx hbi.width_lt hw
    have hhclip := clip_eq hy hbi.height_lt hh
    rw [if_neg (not_not.mpr ⟨hbase, hx, hy⟩)]
    generalize (if x + w > bi.width then bi.width - x else w).toNat = w' at hwclip ⊢
    generalize (if y + h > bi.height then bi.height - y else h).toNat = h' at hhclip ⊢
    refine ⟨rectCells (fun yy => ((y + .ofNat yy).toUInt64 * bi.pixelsPerScanline.toUInt64).toNat + x.toNat)
      w' h', ?_, fun k => ?_⟩
    · rw [rectCells, filling_flatMap]
      refine congrArg (fun f => List.foldl f fb (List.range h')) ?_
      funext fb yy
      rw [filling_map]
      rfl
    · have hline : ∀ yy < h', ((y + .ofNat yy).toUInt64 * bi.pixelsPerScanline.toUInt64).toNat =
          (y.toNat + yy) * bi.pixelsPerScanline.toNat := by
        intro yy hyy
        have hheight := hbi.height_lt
        exact next_line_eq bi (by omega)
      rw [mem_rectCells]
      constructor
      · rintro ⟨xx, yy, hxx, hyy, rfl⟩
        refine ⟨x.toNat + xx, y.toNat + yy, by omega, by omega, ?_⟩
        rw [BootInfo.cell, if_pos ⟨hbase, by omega, by omega⟩, hline yy hyy, Nat.add_assoc]
      · rintro ⟨i, j, hi, hj, hcell⟩
        obtain ⟨⟨-, hiw, hjh⟩, rfl⟩ := BootInfo.of_cell hcell
        refine ⟨i - x.toNat, j - y.toNat, by omega, by omega, ?_⟩
        rw [hline _ (by omega), Nat.add_assoc, Nat.add_sub_cancel' hi.1, Nat.add_sub_cancel' hj.1]
  · refine ⟨[], if_pos hon, fun k => ?_⟩
    constructor
    · intro hmem
      cases hmem
    · rintro ⟨i, j, hi, hj, hcell⟩
      obtain ⟨hin, -⟩ := BootInfo.of_cell hcell
      exact absurd ⟨hin.1, hi.1.trans_lt hin.2.1, hj.1.trans_lt hin.2.2⟩ hon

theorem gfxPixels_eq (fb : Framebuffer) (c : UInt32) (points : List (UInt32 × UInt32)) :
    points.foldl (fun fb p => gfxPixel (some bi) fb p.1 p.2 c) fb =
      filling (fun p : UInt32 × UInt32 => bi.cell p.1.toNat p.2.toNat) (bi.stored (bi.packPixel c)) fb points :=
  congrArg (fun f => List.foldl f fb points) (funext₂ fun fb p => gfxPixel_eq hbi fb p.1 p.2 c)

end

/-- The points of a rectangle, in any order. -/
def Covers (points : List (UInt32 × UInt32)) (x y w h : UInt32) : Prop :=
  ∀ p, p ∈ points ↔ (x.toNat ≤ p.1.toNat ∧ p.1.toNat < x.toNat + w.toNat) ∧
    y.toNat ≤ p.2.toNat ∧ p.2.toNat < y.toNat + h.toNat

section

variable {bi : BootInfo} (hbi : bi.Described) (fb : Framebuffer) (x y c : UInt32) {w h : UInt32}
  (hw : w.toNat < 2 ^ 31) (hh : h.toNat < 2 ^ 31)

include hbi hw hh

theorem gfxRect_covers {points : List (UInt32 × UInt32)} (hpoints : Covers points x y w h) :
    gfxRect (some bi) fb x y w h c = points.foldl (fun fb p => gfxPixel (some bi) fb p.1 p.2 c) fb := by
  obtain ⟨cells, hrect, hcells⟩ := gfxRect_eq hbi fb x y c hw hh
  rw [gfxPixels_eq hbi, hrect]
  refine filling_congr (fun k => ?_) _ fb
  constructor
  · rintro ⟨k', hk, heq⟩
    obtain rfl := Option.some.inj heq
    obtain ⟨i, j, hi, hj, hcell⟩ := (hcells k').mp hk
    obtain ⟨hin, -⟩ := BootInfo.of_cell hcell
    have hi' := toNat_coordinate (hin.2.1.trans hbi.width_lt)
    have hj' := toNat_coordinate (hin.2.2.trans hbi.height_lt)
    refine ⟨(.ofNat i, .ofNat j), (hpoints _).mpr ?_, ?_⟩
    · rw [hi', hj']
      exact ⟨hi, hj⟩
    · rw [hi', hj']
      exact hcell
  · rintro ⟨p, hp, hcell⟩
    obtain ⟨hi, hj⟩ := (hpoints p).mp hp
    exact ⟨k, (hcells k).mpr ⟨p.1.toNat, p.2.toNat, hi, hj, hcell⟩, rfl⟩

/-- Cells of no pixel of the rectangle are left alone. -/
theorem gfxRect_of_ne {k : ℕ} (hout : ∀ i j, (x.toNat ≤ i ∧ i < x.toNat + w.toNat) →
    (y.toNat ≤ j ∧ j < y.toNat + h.toNat) → i < bi.width.toNat → j < bi.height.toNat →
    k ≠ j * bi.pixelsPerScanline.toNat + i) : gfxRect (some bi) fb x y w h c k = fb k := by
  obtain ⟨cells, hrect, hcells⟩ := gfxRect_eq hbi fb x y c hw hh
  rw [hrect]
  refine filling_of_not some _ fb fun k' hk' heq => ?_
  obtain rfl := Option.some.inj heq
  obtain ⟨i, j, hi, hj, hcell⟩ := (hcells k').mp hk'
  obtain ⟨hin, heq⟩ := BootInfo.of_cell hcell
  exact hout i j hi hj hin.2.1 hin.2.2 heq

/-- **A rectangle is its pixels.** -/
theorem gfx_rect_pixels :
    (∀ points : List (UInt32 × UInt32), Covers points x y w h →
      gfxRect (some bi) fb x y w h c = points.foldl (fun fb p => gfxPixel (some bi) fb p.1 p.2 c) fb) ∧
    (∀ k, (∀ i j, (x.toNat ≤ i ∧ i < x.toNat + w.toNat) → (y.toNat ≤ j ∧ j < y.toNat + h.toNat) →
        i < bi.width.toNat → j < bi.height.toNat → k ≠ j * bi.pixelsPerScanline.toNat + i) →
      gfxRect (some bi) fb x y w h c k = fb k) ∧
    ∀ k, bi.width.toNat ≤ k % bi.pixelsPerScanline.toNat → gfxRect (some bi) fb x y w h c k = fb k := by
  refine ⟨fun points hpoints => gfxRect_covers hbi fb x y c hw hh hpoints,
    fun k hout => gfxRect_of_ne hbi fb x y c hw hh hout, fun k hk => ?_⟩
  have hwidth := UInt32.le_iff_toNat_le.mp hbi.width_le
  refine gfxRect_of_ne hbi fb x y c hw hh fun i j _ _ hi _ heq => ?_
  rw [heq, Nat.mul_add_mod_self_right, Nat.mod_eq_of_lt (by omega)] at hk
  omega

omit hh in
theorem gfxLineH_covers {points : List (UInt32 × UInt32)} (hpoints : Covers points x y w 1) :
    gfxLineH (some bi) fb x y w c = points.foldl (fun fb p => gfxPixel (some bi) fb p.1 p.2 c) fb :=
  gfxRect_covers hbi fb x y c hw (by decide) hpoints

end

/-- A line of two pixels where there is room for one; the cell behind it is between the lines. -/
theorem gfx_rect_pixels_clipped :
    let bi : BootInfo := ⟨0x1000, 2, 2, 3, 0x100⟩
    let fb : Framebuffer := fun _ => 7
    gfxRect (some bi) fb 1 1 2 1 0xFFFFFF =
        gfxPixel (some bi) (gfxPixel (some bi) fb 1 1 0xFFFFFF) 2 1 0xFFFFFF ∧
      gfxRect (some bi) fb 1 1 2 1 0xFFFFFF 5 = 7 := by
  intro bi fb
  have hbi : bi.Described := ⟨by decide, by decide, by decide⟩
  have hpoints : Covers [(1, 1), (2, 1)] 1 1 2 1 := by
    rintro ⟨i, j⟩
    rw [List.mem_cons, List.mem_singleton, Prod.mk.injEq, Prod.mk.injEq, ← UInt32.toNat_inj,
      ← UInt32.toNat_inj, ← UInt32.toNat_inj]
    show i.toNat = 1 ∧ j.toNat = 1 ∨ i.toNat = 2 ∧ j.toNat = 1 ↔
      (1 ≤ i.toNat ∧ i.toNat < 1 + 2) ∧ 1 ≤ j.toNat ∧ j.toNat < 1 + 1
    omega
  have hw : (2 : UInt32).toNat < 2 ^ 31 := by decide
  have hh : (1 : UInt32).toNat < 2 ^ 31 := by decide
  obtain ⟨hpixels, -, hbetween⟩ := gfx_rect_pixels hbi fb 1 1 0xFFFFFF hw hh
  exact ⟨hpixels _ hpoints, hbetween 5 (show 2 ≤ 5 % 3 by decide)⟩

end Orion.Graphics
