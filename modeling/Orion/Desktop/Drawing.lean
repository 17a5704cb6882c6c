import Orion.Desktop.Layers
import Orion.Graphics.Rect

/-!
# What is painted where (`kernel/desktop.c`)

`redraw` paints the icons, the visible windows from the lowest `z` to the highest, the start menu and the
taskbar.  The rectangles are those of the source.  The texts, whose fonts are made by the build, with the mark
behind the text of the notes, the points of the canvas and the page of the browser are a parameter.
-/

namespace Orion.Desktop

open Orion.Lib Orion.Graphics

/-! ## Rectangles -/

/-- A call of `gfx_rect`; the colours are left out. -/
structure Box where
  x : ℤ
  y : ℤ
  w : ℤ
  h : ℤ
  deriving Repr, DecidableEq

/-- The point is filled.  A box that starts beside the screen is not drawn at all. -/
def Box.fills (scr : Platform) (b : Box) (x y : ℤ) : Bool :=
  inside b.x b.y 0 0 scr.width scr.height && inside x y 0 0 scr.width scr.height && inside x y b.x b.y b.w b.h

/-- `icon_box` -/
def iconBox (x y : ℤ) (kind : App) : List Box :=
  ⟨x + 10, y, 48, 48⟩ ::
    match kind with
    | .terminal => [⟨x + 19, y + 13, 30, 22⟩]
    | .files => [⟨x + 17, y + 15, 34, 25⟩, ⟨x + 20, y + 10, 16, 8⟩]
    | .notes => ⟨x + 18, y + 9, 32, 34⟩ :: (List.range 4).map fun i : ℕ => ⟨x + 23, y + 17 + i * 6, 20, 1⟩
    | .paint => [⟨x + 18, y + 10, 32, 32⟩, ⟨x + 23, y + 15, 8, 8⟩, ⟨x + 34, y + 25, 10, 10⟩]
    | .browser =>
      [⟨x + 17, y + 10, 34, 34⟩, ⟨x + 21, y + 14, 26, 26⟩, ⟨x + 30, y + 14, 8, 26⟩, ⟨x + 21, y + 25, 26, 1⟩]
    | .network =>
      [⟨x + 18, y + 29, 5, 11⟩, ⟨x + 27, y + 23, 5, 17⟩, ⟨x + 36, y + 17, 5, 23⟩, ⟨x + 45, y + 11, 5, 29⟩]
    | .about => [⟨x + 18, y + 10, 32, 32⟩]

/-- `draw_desktop_icons`; an icon's row is its application's number. -/
def drawIcon (app : App) : List Box := iconBox 26 (42 + app.index * 91) app

/-! ## Windows -/

namespace Window

variable (w : Window)

/-- `draw_window_frame`: the shadow, the title, the edges and the button that closes. -/
def drawFrame : List Box :=
  [⟨w.x + 7, w.y + 8, w.w, w.h⟩, ⟨w.x, w.y, w.w, titleH⟩, ⟨w.x, w.y + titleH, w.w, 1⟩, ⟨w.x, w.y, 1, w.h⟩,
    ⟨w.x + w.w - 1, w.y, 1, w.h⟩, ⟨w.x, w.y + w.h - 1, w.w, 1⟩, ⟨w.x + w.w - 40, w.y + 5, 34, 31⟩]

/-- `draw_window_content` -/
def drawContent (app : App) : List Box :=
  let bx := w.x + 1
  let by' := w.y + titleH + 1
  let bw := w.w - 2
  let bh := w.h - titleH - 2
  ⟨bx, by', bw, bh⟩ ::
    match app with
    | .terminal => [⟨bx + 14, by' + bh - 42, bw - 28, 30⟩]
    | .files =>
      ⟨bx, by', 150, bh⟩ :: ⟨bx + 175, by' + 50, bw - 195, 1⟩ :: (iconBox (bx + 185) (by' + 70) .notes ++
        iconBox (bx + 290) (by' + 70) .paint ++ iconBox (bx + 395) (by' + 70) .browser)
    | .notes => [⟨bx, by', bw, 36⟩]
    | .paint =>
      let cx := bx + 18
      let cy := by' + 60
      let cw := if bw - 36 > 640 then 640 else bw - 36
      let ch := if bh - 78 > 360 then 360 else bh - 78
      [⟨bx, by', bw, 46⟩, ⟨bx + 96, by' + 8, 60, 30⟩, ⟨cx, cy, cw, ch⟩, ⟨cx, cy, cw, 1⟩, ⟨cx, cy, 1, ch⟩]
    | .browser =>
      let aw := if bw - 238 < 120 then 120 else bw - 238
      [⟨bx, by', bw, 58⟩, ⟨bx + 12, by' + 10, 34, 34⟩, ⟨bx + 52, by' + 10, 34, 34⟩, ⟨bx + 92, by' + 10, 42, 34⟩,
        ⟨bx + 144, by' + 10, aw, 34⟩, ⟨bx + bw - 84, by' + 10, 70, 34⟩, ⟨bx + 14, by' + 92, bw - 28, 1⟩]
    | .network => [⟨bx + 24, by' + 248, 170, 36⟩]
    | .about => []

end Window

/-! ## The menu and the taskbar -/

section

variable (scr : Platform) (d : State)

/-- `draw_start_menu`, with the entry under the cursor. -/
def drawStartMenu : List Box :=
  let x := 14
  let y := scr.taskbarY - 438
  let w := 280
  let h := 428
  [⟨x + 6, y + 6, w, h⟩, ⟨x, y, w, h⟩, ⟨x, y, w, 58⟩] ++
    (App.all.filter fun app => d.cursorIn (x + 10) (y + 68 + app.index * 43) (w - 20) 36).map
      (fun app => ⟨x + 10, y + 68 + app.index * 43, w - 20, 36⟩) ++
    [⟨x + 14, y + 382, w - 28, 1⟩]

/-- `draw_taskbar` -/
def drawTaskbar : List Box :=
  let y := scr.taskbarY
  [⟨0, y, scr.width, taskbarH⟩, ⟨0, y, scr.width, 1⟩, ⟨14, y + 9, 38, 36⟩, ⟨23, y + 17, 20, 20⟩] ++
    App.all.map fun app => ⟨70 + app.index * 48, y + 8, 40, 38⟩

/-! ## The order of painting -/

inductive Element where
  | icon (app : App)
  | window (app : App)
  | startMenu
  | taskbar
  deriving Repr, DecidableEq

/-- The calls that paint an element. -/
def Element.draw : Element → List Box
  | .icon app => drawIcon app
  | .window app => (d.wins app).drawFrame ++ (d.wins app).drawContent app
  | .startMenu => drawStartMenu scr d
  | .taskbar => drawTaskbar scr

/-- What `redraw` paints, in order. -/
def painted : List Element :=
  iconApps.map (fun r => .icon r.2) ++ (drawOrder d).map .window ++
    (if d.startOpen then [.startMenu] else []) ++ [.taskbar]

-- the texts and the notes' mark, the canvas and the page
variable (ink : Element → ℤ → ℤ → Bool)

/-- The element is painted at the point. -/
def Element.paints (e : Element) (x y : ℤ) : Bool := (e.draw scr d).any (·.fills scr x y) || ink e x y

/-- The element that is painted last at a point. -/
def topPainted (x y : ℤ) : Option Element := (painted d).reverse.find? fun e => e.paints scr d ink x y

end

/-! ## The cells of the framebuffer -/

/-- The numbers of a box are no other ones as unsigned ones. -/
structure Box.Small (b : Box) : Prop where
  x : -2 ^ 31 ≤ b.x ∧ b.x < 2 ^ 31
  y : -2 ^ 31 ≤ b.y ∧ b.y < 2 ^ 31
  w : 0 ≤ b.w ∧ b.w < 2 ^ 31
  h : 0 ≤ b.h ∧ b.h < 2 ^ 31

/-- A negative start is right of every screen. -/
theorem toNat_ofInt {n : ℤ} (h : -2 ^ 31 ≤ n ∧ n < 2 ^ 31) :
    (0 ≤ n ∧ ((UInt32.ofInt n).toNat : ℤ) = n) ∨ (n < 0 ∧ 2 ^ 31 ≤ (UInt32.ofInt n).toNat) := by
  have hval : (UInt32.ofInt n).toNat = (n % 2 ^ 32).toNat := by
    rw [UInt32.ofInt, UInt32.toNat_ofNat']
    omega
  rw [hval]
  omega

/-- **The points of a box are what `gfx_rect` fills.** -/
theorem Box.gfxRect_fills {bi : BootInfo} {scr : Platform} (hbi : bi.Described)
    (hwidth : bi.width.toNat = scr.width) (hheight : bi.height.toNat = scr.height) {b : Box} (hb : b.Small)
    (fb : Framebuffer) (c : UInt32) :
    ∃ cells : List ℕ,
      gfxRect (some bi) fb (.ofInt b.x) (.ofInt b.y) (.ofInt b.w) (.ofInt b.h) c =
        filling some (bi.stored (bi.packPixel c)) fb cells ∧
      ∀ k, k ∈ cells ↔ ∃ i j : ℕ, b.fills scr i j = true ∧ bi.cell i j = some k := by
  have hx := toNat_ofInt hb.x
  have hy := toNat_ofInt hb.y
  have hw := toNat_ofInt ⟨by linarith [hb.w.1], hb.w.2⟩
  have hh := toNat_ofInt ⟨by linarith [hb.h.1], hb.h.2⟩
  have hbw := hb.w
  have hbh := hb.h
  have hwlt := hbi.width_lt
  have hhlt := hbi.height_lt
  obtain ⟨cells, hrect, hcells⟩ := gfxRect_eq hbi fb (.ofInt b.x) (.ofInt b.y) c
    (w := .ofInt b.w) (h := .ofInt b.h) (by omega) (by omega)
  refine ⟨cells, hrect, fun k => (hcells k).trans ?_⟩
  refine exists_congr fun i => exists_congr fun j => ?_
  rw [← and_assoc, and_congr_left_iff]
  intro hcell
  obtain ⟨⟨-, hi, hj⟩, -⟩ := BootInfo.of_cell hcell
  rw [Box.fills, Bool.and_eq_true, Bool.and_eq_true, inside_iff, inside_iff, inside_iff]
  omega

end Orion.Desktop
