import Orion.Graphics.Raw
import Mathlib.Data.Int.Notation

/-!
# The cursor (`kernel/desktop.c`)

The cursor is drawn into the framebuffer; the 16 × 24 cells under it are saved before and put back
before anything else is drawn.
-/

namespace Orion.Desktop

open Orion.Lib Orion.Graphics

/-! ## The source -/

/-- The framebuffer with `cursor_under`, `cursor_saved`, `cursor_sx` and `cursor_sy`. -/
structure Screen where
  fb : Framebuffer
  cursorUnder : ℕ → UInt32
  cursorSaved : Bool
  cursorSx : ℤ
  cursorSy : ℤ

def cursorShape : List UInt16 :=
  [0x8000, 0xC000, 0xE000, 0xF000, 0xF800, 0xFC00, 0xFE00, 0xFF00, 0xFF80, 0xF800, 0xDC00, 0x8E00, 0x0600,
    0x0700, 0x0300, 0x0300, 0x0000, 0x0000]

section

variable (bi : BootInfo)

def cursorRestore (s : Screen) : Screen :=
  if ! s.cursorSaved then s
  else
    { s with
      fb := (List.range 24).foldl (fun fb (y : ℕ) => (List.range 16).foldl (fun fb (x : ℕ) =>
        gfxPutRaw (some bi) fb (.ofInt (s.cursorSx + x)) (.ofInt (s.cursorSy + y)) (s.cursorUnder (y * 16 + x)))
          fb) s.fb
      cursorSaved := false }

def cursorCapture (mouseX mouseY : ℤ) (s : Screen) : Screen :=
  { s with
    cursorSx := mouseX
    cursorSy := mouseY
    cursorUnder := (List.range 24).foldl (fun under (y : ℕ) => (List.range 16).foldl (fun under (x : ℕ) =>
      Function.update under (y * 16 + x) (gfxGetRaw (some bi) s.fb (.ofInt (mouseX + x)) (.ofInt (mouseY + y))))
        under) s.cursorUnder
    cursorSaved := true }

def cursorDraw (mouseX mouseY : ℤ) (fb : Framebuffer) : Framebuffer :=
  (List.range 18).foldl (fun fb (y : ℕ) =>
    let row := (cursorShape.getD y 0).toUInt32
    (List.range 12).foldl (fun fb (x : ℕ) =>
      if row &&& (0x8000 >>> UInt32.ofNat x) ≠ 0 then
        gfxPixel (some bi) fb (.ofInt (mouseX + x)) (.ofInt (mouseY + y))
          (if x < 2 ∨ y < 2 then 0xFFFFFF else 0x111820)
      else fb) fb) fb

def cursorRefresh (mouseX mouseY : ℤ) (s : Screen) : Screen :=
  let s := cursorCapture bi mouseX mouseY s
  { s with fb := cursorDraw bi mouseX mouseY s.fb }

end

/-! ## Blocks -/

/-- The pixels of a block, line by line. -/
def block (w h : ℕ) : List (ℕ × ℕ) :=
  (List.range h).flatMap fun y => (List.range w).map fun x => (x, y)

theorem mem_block {w h : ℕ} {p : ℕ × ℕ} : p ∈ block w h ↔ p.1 < w ∧ p.2 < h := by
  rw [block, List.mem_flatMap]
  constructor
  · rintro ⟨y, hy, hp⟩
    obtain ⟨x, hx, rfl⟩ := List.mem_map.mp hp
    exact ⟨List.mem_range.mp hx, List.mem_range.mp hy⟩
  · rintro ⟨hx, hy⟩
    exact ⟨p.2, List.mem_range.mpr hy, List.mem_map.mpr ⟨p.1, List.mem_range.mpr hx, rfl⟩⟩

/-- The two loops over a block. -/
theorem storing_block {κ α : Type*} [DecidableEq κ] (cell : ℕ × ℕ → Option κ) (v : ℕ × ℕ → α) (m : κ → α)
    (w h : ℕ) :
    storing cell v m (block w h) = (List.range h).foldl (fun m y => (List.range w).foldl (fun m x =>
      put (v (x, y)) m (cell (x, y))) m) m := by
  rw [block, storing_flatMap]
  refine congrArg (fun f => List.foldl f m (List.range h)) ?_
  funext m y
  rw [storing_map]
  rfl

/-! ## Saving and putting back -/

section

variable {bi : BootInfo} (x y : ℤ)

/-- The cell of a pixel of the cursor's block. -/
def blockCell (bi : BootInfo) (x y : ℤ) (p : ℕ × ℕ) : Option ℕ := bi.cellAt (.ofInt (x + p.1)) (.ofInt (y + p.2))

theorem cursorCapture_under (s : Screen) {p : ℕ × ℕ} (hp : p ∈ block 16 24) :
    (cursorCapture bi x y s).cursorUnder (p.2 * 16 + p.1) =
      gfxGetRaw (some bi) s.fb (.ofInt (x + p.1)) (.ofInt (y + p.2)) := by
  have hstoring : (cursorCapture bi x y s).cursorUnder =
      storing (fun p : ℕ × ℕ => some (p.2 * 16 + p.1))
        (fun p : ℕ × ℕ => gfxGetRaw (some bi) s.fb (.ofInt (x + p.1)) (.ofInt (y + p.2))) s.cursorUnder
        (block 16 24) := by
    rw [storing_block]
    rfl
  rw [hstoring]
  refine storing_of_agree (fun q hq hcell => ?_) (.inr ⟨p, hp, rfl⟩)
  have hqp := (mem_block.mp hq).1
  have hpp := (mem_block.mp hp).1
  have heq := Option.some.inj hcell
  rw [show q = p from Prod.ext (by omega) (by omega)]

/-- The pixels of the arrow. -/
def inArrow (p : ℕ × ℕ) : Bool := (cursorShape.getD p.2 0).toUInt32 &&& (0x8000 >>> UInt32.ofNat p.1) ≠ 0

theorem cursorDraw_storing (fb : Framebuffer) :
    cursorDraw bi x y fb =
      storing (fun p => if inArrow p then blockCell bi x y p else none)
        (fun p => bi.stored (bi.packPixel (if p.1 < 2 ∨ p.2 < 2 then 0xFFFFFF else 0x111820))) fb
        (block 12 18) := by
  rw [storing_block, cursorDraw]
  refine congrArg (fun f => List.foldl f fb (List.range 18)) ?_
  funext fb yy
  refine congrArg (fun f => List.foldl f fb (List.range 12)) ?_
  funext fb xx
  by_cases hbit : (cursorShape.getD yy 0).toUInt32 &&& (0x8000 >>> UInt32.ofNat xx) ≠ 0
  · have harrow : inArrow (xx, yy) = true := decide_eq_true hbit
    rw [if_pos hbit, if_pos harrow, gfxPixel_put, blockCell]
  · have harrow : ¬ inArrow (xx, yy) = true := fun h => hbit (of_decide_eq_true h)
    rw [if_neg hbit, if_neg harrow]
    rfl

/-- The arrow is inside the block. -/
theorem cursorDraw_of_not {fb : Framebuffer} {k : ℕ} (h : ∀ p ∈ block 16 24, blockCell bi x y p ≠ some k) :
    cursorDraw bi x y fb k = fb k := by
  rw [cursorDraw_storing]
  refine storing_of_not _ _ fb fun p hp heq => ?_
  obtain ⟨hx, hy⟩ := mem_block.mp hp
  split at heq
  · exact h p (mem_block.mpr ⟨by omega, by omega⟩) heq
  · cases heq

/-- A screen with the cursor over a picture, and with the cells of the picture saved. -/
structure CursorOver (bi : BootInfo) (picture : Framebuffer) (s : Screen) : Prop where
  fb_eq : s.fb = cursorDraw bi s.cursorSx s.cursorSy picture
  saved : s.cursorSaved = true
  under : ∀ p ∈ block 16 24, s.cursorUnder (p.2 * 16 + p.1) =
    gfxGetRaw (some bi) picture (.ofInt (s.cursorSx + p.1)) (.ofInt (s.cursorSy + p.2))

theorem cursorRefresh_over (s : Screen) : CursorOver bi s.fb (cursorRefresh bi x y s) where
  fb_eq := by simp only [cursorRefresh, cursorCapture]
  saved := by simp only [cursorRefresh, cursorCapture]
  under := by
    intro p hp
    exact cursorCapture_under x y s hp

/-- What is put back is the picture, wherever the cursor is. -/
theorem CursorOver.restore {picture : Framebuffer} {s : Screen} (h : CursorOver bi picture s) (hholds : bi.Holds picture) :
    cursorRestore bi s = { s with fb := picture, cursorSaved := false } := by
  have hback : storing (blockCell bi s.cursorSx s.cursorSy)
      (fun p => bi.stored (s.cursorUnder (p.2 * 16 + p.1))) s.fb (block 16 24) = picture := by
    refine storing_back (fun p hp k hcell => ?_) fun k hk => ?_
    · rw [h.under p hp, gfxGetRaw_of_cell hcell]
      exact hholds k
    · rw [h.fb_eq]
      exact cursorDraw_of_not _ _ hk
  rw [cursorRestore, h.saved, ← hback, storing_block]
  simp only [gfxPutRaw_put]
  rfl

end

end Orion.Desktop
