import Orion.Graphics.Rect

/-!
# Cells as they are (`kernel/graphics.c`)

A cell is read and written back without its colour being known.  Everything else that is drawn ends in
`gfx_pixel` and `gfx_rect`.
-/

namespace Orion.Graphics

open Orion.Lib

/-! ## The source -/

section

variable (info : Option BootInfo)

def gfxGetRaw (fb : Framebuffer) (x y : UInt32) : UInt32 :=
  match info with
  | none => 0
  | some bi =>
    if ¬ gfxReady info ∨ x ≥ bi.width ∨ y ≥ bi.height then 0
    else
      let off : UInt64 := y.toUInt64 * bi.pixelsPerScanline.toUInt64 + x.toUInt64
      fb off.toNat

def gfxPutRaw (fb : Framebuffer) (x y raw : UInt32) : Framebuffer :=
  match info with
  | none => fb
  | some bi =>
    if ¬ gfxReady info ∨ x ≥ bi.width ∨ y ≥ bi.height then fb
    else
      let off : UInt64 := y.toUInt64 * bi.pixelsPerScanline.toUInt64 + x.toUInt64
      Function.update fb off.toNat (bi.stored raw)

end

/-- A call that draws. -/
inductive Draw where
  | pixel (x y c : UInt32)
  | rect (x y w h c : UInt32)
  deriving Repr, DecidableEq

def Draw.run (bi : BootInfo) (fb : Framebuffer) : Draw → Framebuffer
  | .pixel x y c => gfxPixel (some bi) fb x y c
  | .rect x y w h c => gfxRect (some bi) fb x y w h c

/-- The calls, one after the other. -/
def drawAll (bi : BootInfo) (fb : Framebuffer) (calls : List Draw) : Framebuffer := calls.foldl (Draw.run bi) fb

/-! ## The cell of a pixel -/

namespace BootInfo

variable (bi : BootInfo)

/-- The cell that the functions compute, if they do not return before. -/
def cellAt (x y : UInt32) : Option ℕ :=
  if ¬ gfxReady (some bi) ∨ x ≥ bi.width ∨ y ≥ bi.height then none
  else some (y.toUInt64 * bi.pixelsPerScanline.toUInt64 + x.toUInt64).toNat

/-- No cell has a bit that a store would drop. -/
def Holds (fb : Framebuffer) : Prop := ∀ k, bi.stored (fb k) = fb k

theorem stored_stored (v : UInt32) : bi.stored (bi.stored v) = bi.stored v := by
  rw [stored]
  split
  · next hmode =>
    rw [stored, if_pos hmode, UInt16.toUInt16_toUInt32]
  · next hmode => rw [stored, if_neg hmode]

end BootInfo

section

variable {bi : BootInfo} (fb : Framebuffer) (x y : UInt32)

theorem gfxPixel_put (c : UInt32) :
    gfxPixel (some bi) fb x y c = put (bi.stored (bi.packPixel c)) fb (bi.cellAt x y) := by
  rw [gfxPixel, BootInfo.cellAt]
  split
  · rfl
  · rfl

theorem gfxPutRaw_put (raw : UInt32) :
    gfxPutRaw (some bi) fb x y raw = put (bi.stored raw) fb (bi.cellAt x y) := by
  rw [gfxPutRaw, BootInfo.cellAt]
  split
  · rfl
  · rfl

variable {fb x y}

theorem gfxGetRaw_of_cell {k : ℕ} (h : bi.cellAt x y = some k) : gfxGetRaw (some bi) fb x y = fb k := by
  rw [BootInfo.cellAt] at h
  split at h
  · cases h
  · next hon =>
    cases h
    exact if_neg hon

end

section

variable {bi : BootInfo}

theorem BootInfo.Holds.put {v : UInt32} {fb : Framebuffer} (h : bi.Holds fb) (c : Option ℕ) :
    bi.Holds (put (bi.stored v) fb c) := by
  cases c with
  | none => exact h
  | some k =>
    intro k'
    obtain rfl | hne := eq_or_ne k' k
    · show bi.stored (Function.update fb k' (bi.stored v) k') = Function.update fb k' (bi.stored v) k'
      rw [Function.update_self, bi.stored_stored]
    · rw [put_of_ne _ _ fun heq => hne (Option.some.inj heq).symm]
      exact h k'

theorem BootInfo.Holds.rect {fb : Framebuffer} (h : bi.Holds fb) (x y w h' c : UInt32) :
    bi.Holds (gfxRect (some bi) fb x y w h' c) := by
  rw [gfxRect]
  split
  · exact h
  · refine List.foldlRecOn _ _ h fun fb hfb yy _ => ?_
    exact List.foldlRecOn _ _ hfb fun fb hfb xx _ => hfb.put (some _)

theorem BootInfo.Holds.drawAll {fb : Framebuffer} (h : bi.Holds fb) (calls : List Draw) :
    bi.Holds (drawAll bi fb calls) := by
  refine List.foldlRecOn _ _ h fun fb hfb call _ => ?_
  cases call with
  | pixel x y c =>
    rw [Draw.run, gfxPixel_put]
    exact hfb.put _
  | rect x y w h c => exact hfb.rect x y w h c

theorem drawAll_append (fb : Framebuffer) (calls calls' : List Draw) :
    drawAll bi fb (calls ++ calls') = drawAll bi (drawAll bi fb calls) calls' :=
  List.foldl_append

end

section

variable {bi : BootInfo} (hbi : bi.Described)

include hbi

theorem BootInfo.cellAt_eq (x y : UInt32) : bi.cellAt x y = bi.cell x.toNat y.toNat := by
  rw [BootInfo.cellAt, BootInfo.cell]
  simp only [offScreen_iff]
  by_cases hon : bi.framebufferBase ≠ 0 ∧ x.toNat < bi.width.toNat ∧ y.toNat < bi.height.toNat
  · obtain ⟨hline, hlt⟩ := line_eq bi (hon.2.2.trans hbi.height_lt)
    have hx := hon.2.1.trans hbi.width_lt
    rw [if_neg (not_not.mpr hon), if_pos hon, UInt64.toNat_add, hline, UInt32.toNat_toUInt64,
      Nat.mod_eq_of_lt (by omega)]
  · rw [if_pos hon, if_neg hon]

/-- A rectangle over the whole screen leaves nothing of what was there. -/
theorem gfxRect_whole {fb fb' : Framebuffer} (h : ∀ k, (∀ i j, bi.cell i j ≠ some k) → fb k = fb' k)
    (c : UInt32) :
    gfxRect (some bi) fb 0 0 bi.width bi.height c = gfxRect (some bi) fb' 0 0 bi.width bi.height c := by
  obtain ⟨cells, hrect, hcells⟩ := gfxRect_eq hbi fb 0 0 c hbi.width_lt hbi.height_lt
  obtain ⟨cells', hrect', hcells'⟩ := gfxRect_eq hbi fb' 0 0 c hbi.width_lt hbi.height_lt
  rw [hrect, hrect']
  funext k
  by_cases hk : k ∈ cells
  · have hk' := (hcells' k).mpr ((hcells k).mp hk)
    rw [filling_of_exists some _ fb ⟨k, hk, rfl⟩, filling_of_exists some _ fb' ⟨k, hk', rfl⟩]
  · have hk' : k ∉ cells' := fun hmem => hk ((hcells k).mpr ((hcells' k).mp hmem))
    have hnot : ∀ l : List ℕ, k ∉ l → ∀ i ∈ l, some i ≠ some k := by
      intro l hl i hi heq
      exact hl (Option.some.inj heq ▸ hi)
    rw [filling_of_not some _ fb (hnot cells hk), filling_of_not some _ fb' (hnot cells' hk')]
    refine h k fun i j hcell => hk ((hcells k).mpr ?_)
    obtain ⟨⟨-, hi, hj⟩, -⟩ := BootInfo.of_cell hcell
    exact ⟨i, j, ⟨Nat.zero_le i, by simpa using hi⟩, ⟨Nat.zero_le j, by simpa using hj⟩, hcell⟩

end

end Orion.Graphics
