import Mathlib.Tactic.NormNum
import Orion.Desktop.Press

/-!
# Windows stay within reach

A window is where `desktop_init` put it or where a drag has clamped it (`Placed`).  A window that fits
above the taskbar then keeps a pixel of its title where the cursor can go; the clamp at the bottom
undoes the one at the top for a window that does not fit.  All fit exactly if the screen has the 590
lines of the browser above its taskbar (`windows_reachable_iff`).
-/

namespace Orion.Desktop

/-- The title starts on the screen, and the cursor can get to a pixel of it above the taskbar. -/
def Window.Reachable (scr : Platform) (w : Window) : Prop :=
  0 ≤ w.y ∧ ∃ px py, inside px py w.x w.y w.w titleH = true ∧
    0 ≤ px ∧ px ≤ scr.width - 16 ∧ 0 ≤ py ∧ py < scr.taskbarY

/-- The place of a window: where it was at first, or where a drag has put it. -/
structure Placed (scr : Platform) (old w : Window) : Prop where
  width : w.w = old.w
  height : w.h = old.h
  place : w.x = old.x ∧ w.y = old.y ∨
    w.x + w.w ≤ scr.width ∧ (0 ≤ w.x ∨ w.x + w.w = scr.width) ∧ 0 ≤ w.y ∧ w.y < scr.taskbarY

def Orderly (scr : Platform) (d : State) : Prop := ∀ app, Placed scr (init.wins app) (d.wins app)

theorem init_orderly (scr : Platform) : Orderly scr init := fun _ => ⟨rfl, rfl, .inl ⟨rfl, rfl⟩⟩

/-! ## A step -/

/-- No window has moved. -/
def Unmoved (d e : State) : Prop :=
  ∀ app, (e.wins app).x = (d.wins app).x ∧ (e.wins app).y = (d.wins app).y ∧
    (e.wins app).w = (d.wins app).w ∧ (e.wins app).h = (d.wins app).h

theorem Unmoved.refl (d : State) : Unmoved d d := fun _ => ⟨rfl, rfl, rfl, rfl⟩

theorem Unmoved.trans {c d e : State} (h : Unmoved c d) (h' : Unmoved d e) : Unmoved c e :=
  fun app => ⟨(h' app).1.trans (h app).1, (h' app).2.1.trans (h app).2.1,
    (h' app).2.2.1.trans (h app).2.2.1, (h' app).2.2.2.trans (h app).2.2.2⟩

theorem SameLayout.unmoved {d e : State} (hs : SameLayout d e) : Unmoved d e := by
  intro app
  rw [hs.wins]
  exact ⟨rfl, rfl, rfl, rfl⟩

theorem setWin_unmoved (d : State) (app : App) (w : Window) (h : w.x = (d.wins app).x ∧
    w.y = (d.wins app).y ∧ w.w = (d.wins app).w ∧ w.h = (d.wins app).h) :
    Unmoved d (d.setWin app w) := by
  intro b
  by_cases hb : b = app
  · rw [hb, State.setWin_self]
    exact h
  · rw [d.setWin_of_ne w hb]
    exact ⟨rfl, rfl, rfl, rfl⟩

theorem focusApp_unmoved (d : State) (app : App) : Unmoved d (d.focusApp app) :=
  setWin_unmoved d app { d.wins app with opened := true, minimized := false, z := d.ztop + 1 }
    ⟨rfl, rfl, rfl, rfl⟩

theorem raise_unmoved (d : State) (app : App) : Unmoved d (d.raise app) :=
  setWin_unmoved d app { d.wins app with z := d.ztop + 1 } ⟨rfl, rfl, rfl, rfl⟩

theorem pressWindow_unmoved (d : State) (app : App) : Unmoved d (d.pressWindow app) := by
  have hraised := raise_unmoved d app
  rcases d.pressWindow_cases app with hclose | ⟨-, hdrag⟩ | hsame
  · rw [hclose]
    exact hraised.trans (setWin_unmoved (d.raise app) app
      { (d.raise app).wins app with opened := false } ⟨rfl, rfl, rfl, rfl⟩)
  · rw [hdrag]
    exact hraised
  · exact hraised.trans hsame.unmoved

section

variable {scr : Platform} {d e : State}

theorem handlePress_unmoved (scr : Platform) (d : State) : Unmoved d (handlePress scr d) := by
  rcases handlePress_cases scr d with hsame | ⟨app, hfocus⟩ | ⟨app, hmin⟩ | ⟨app, -, hpress⟩
  · exact hsame.unmoved
  · rw [hfocus]
    exact focusApp_unmoved d app
  · exact (setWin_unmoved d app { d.wins app with minimized := true }
      ⟨rfl, rfl, rfl, rfl⟩).trans hmin.unmoved
  · rw [hpress]
    exact pressWindow_unmoved d app

theorem Orderly.unmoved (h : Orderly scr d) (hmoved : Unmoved d e) : Orderly scr e := by
  intro app
  obtain ⟨hwidth, hheight, hplace⟩ := h app
  obtain ⟨hx, hy, hw, hh⟩ := hmoved app
  refine ⟨hw.trans hwidth, hh.trans hheight, ?_⟩
  rw [hx, hy, hw]
  exact hplace

/-- **A drag** clamps a window that fits above the taskbar. -/
theorem dragTo_placed {old w : Window} (h : Placed scr old w) (hpos : 0 < old.h)
    (hfits : old.h ≤ scr.taskbarY) : Placed scr old (dragTo scr d w) := by
  refine ⟨h.width, h.height, .inr ?_⟩
  have hheight := h.height
  unfold Platform.taskbarY at *
  unfold dragTo
  simp only
  refine ⟨?_, ?_, ?_, ?_⟩
  · split_ifs <;> omega
  · split_ifs <;> omega
  · split_ifs <;> omega
  · split_ifs <;> omega

theorem init_sizes (app : App) : 540 ≤ (init.wins app).w ∧ 0 < (init.wins app).h ∧
    (init.wins app).h ≤ 590 := by
  cases app <;> decide

theorem Orderly.dragWindow (h : Orderly scr d) (hfits : 590 ≤ scr.taskbarY) :
    Orderly scr (dragWindow scr d) := by
  unfold Orion.Desktop.dragWindow
  cases d.dragging with
  | none => exact h
  | some app =>
    simp only
    split
    · intro b
      by_cases hb : b = app
      · have hsize := init_sizes b
        rw [hb, State.setWin_self, ← hb]
        exact dragTo_placed (h b) hsize.2.1 (hsize.2.2.trans hfits)
      · rw [d.setWin_of_ne _ hb]
        exact h b
    · exact h

theorem Orderly.handleMousePacket (h : Orderly scr d) (hfits : 590 ≤ scr.taskbarY) (p : Packet) :
    Orderly scr (handleMousePacket scr p d) := by
  have hmoved : Orderly scr (moveCursor scr p d) := h
  have hdragged : Orderly scr (endDrag (Orion.Desktop.dragWindow scr (moveCursor scr p d))) := by
    unfold endDrag
    split
    · exact hmoved.dragWindow hfits
    · exact hmoved.dragWindow hfits
  unfold Orion.Desktop.handleMousePacket
  simp only
  split
  · exact hmoved
  · split
    · have hrecorded : Orderly scr
          ((endDrag (Orion.Desktop.dragWindow scr (moveCursor scr p d))).record true) := hdragged
      exact hrecorded.unmoved (handlePress_unmoved scr _)
    · split
      · exact hdragged
      · exact hdragged

theorem Orderly.step (h : Orderly scr d) (hfits : 590 ≤ scr.taskbarY) (e : Event) :
    Orderly scr (step scr d e) := by
  cases hpacket : packetAt scr d e with
  | some p =>
    rw [step_packet hpacket]
    have hcleared : Orderly scr { d with mpkt := [] } := h
    exact hcleared.handleMousePacket hfits p
  | none =>
    rcases step_quiet hpacket with hsame | hfocus
    · exact h.unmoved hsame.unmoved
    · exact h.unmoved ((focusApp_unmoved d .browser).trans hfocus.unmoved)

end

/-! ## A run -/

theorem after_orderly {scr : Platform} (hfits : 590 ≤ scr.taskbarY) (events : List Event) :
    Orderly scr (after scr events) := by
  induction events using List.reverseRecOn with
  | nil => exact init_orderly scr
  | append_singleton events e ih =>
    rw [after_append]
    exact ih.step hfits e

/-- Where the windows are at first. -/
theorem init_places (app : App) : 0 ≤ (init.wins app).x ∧ (init.wins app).x ≤ 380 ∧
    0 ≤ (init.wins app).y ∧ (init.wins app).y ≤ 165 := by
  cases app <;> decide

/-- A window that is placed can be reached at the left edge of its title. -/
theorem Placed.reachable {scr : Platform} {app : App} {w : Window}
    (h : Placed scr (init.wins app) w) (hwidth : 640 ≤ scr.width) (hheight : 480 ≤ scr.height) :
    w.Reachable scr := by
  have hsize := (init_sizes app).1
  have hfirst := init_places app
  have hold := h.width
  have htaskbar : scr.taskbarY = scr.height - 54 := rfl
  rcases h.place with ⟨hx, hy⟩ | ⟨hright, hleft, htop, hbottom⟩
  · refine ⟨by omega, w.x, w.y, inside_iff.mpr ?_, by omega, by omega, by omega, by omega⟩
    rw [titleH]
    omega
  · refine ⟨htop, max w.x 0, w.y, inside_iff.mpr ?_, by omega, by omega, htop, hbottom⟩
    rw [titleH]
    omega

/-! ## A window that does not fit -/

/-- The bytes of a packet. -/
def Packet.bytes (scr : Platform) (p : Packet) : List UInt8 :=
  if scr.packetSize = 4 then [p.b0, p.b1, p.b2, p.b3] else [p.b0, p.b1, p.b2]

/-- The bytes of a packet come in. -/
def feed (scr : Platform) (d : State) (p : Packet) : State :=
  (p.bytes scr).foldl (fun d b => step scr d (.mouse b)) d

theorem after_bytes (scr : Platform) (ps : List Packet) :
    after scr ((ps.flatMap (Packet.bytes scr)).map .mouse) = ps.foldl (feed scr) init := by
  rw [after, List.foldl_map, List.foldl_flatMap]
  rfl

/-- The windows of another state; the menu is closed, nothing is dragged and no packet is under
way. -/
structure Idle (d base : State) (x y : ℤ) (left : Bool) : Prop where
  wins : d.wins = base.wins
  ztop : d.ztop = base.ztop
  mouseX : d.mouseX = x
  mouseY : d.mouseY = y
  mouseLeft : d.mouseLeft = left
  mpkt : d.mpkt = []
  halted : d.halted = false
  startOpen : d.startOpen = false
  dragging : d.dragging = none

/-- A packet without wheel movement. -/
def Packet.Still (p : Packet) : Prop := p.b0 &&& 8 ≠ 0 ∧ p.b3 = 0

instance (p : Packet) : Decidable p.Still := inferInstanceAs (Decidable (_ ∧ _))

section

variable {scr : Platform} {d : State}

theorem feed_packet (hmpkt : d.mpkt = []) (hhalted : d.halted = false) {p : Packet}
    (hp : p.Still) : feed scr d p = handleMousePacket scr p d := by
  obtain ⟨hfirst, hlast⟩ := hp
  have hclear : { d with mpkt := [], halted := false } = d := by rw [← hmpkt, ← hhalted]
  by_cases hsize : scr.packetSize = 4
  · have hfour : feed scr d p = handleMousePacket scr p { d with mpkt := [], halted := false } := by
      simp [feed, Packet.bytes, hsize, step, mouseByte, hmpkt, hhalted, hfirst]
    rw [hfour, hclear]
  · have hpad : (⟨p.b0, p.b1, p.b2, 0⟩ : Packet) = p := by rw [← hlast]
    have hthree : feed scr d p =
        handleMousePacket scr ⟨p.b0, p.b1, p.b2, 0⟩ { d with mpkt := [], halted := false } := by
      simp [feed, Packet.bytes, hsize, step, mouseByte, hmpkt, hhalted, hfirst]
    rw [hthree, hclear, hpad]

theorem scrolls_still {p : Packet} (hp : p.Still) (e : State) : scrolls scr p e = false := by
  have hwheel : wheelOf scr p = 0 := by
    rw [wheelOf, Packet.wheel, hp.2]
    simp
  rw [scrolls, hwheel]
  rfl

/-- A packet without wheel movement, after the window and the end of the drag. -/
theorem feed_still (hmpkt : d.mpkt = []) (hhalted : d.halted = false) {p : Packet} (hp : p.Still)
    {e : State} (he : endDrag (dragWindow scr (moveCursor scr p d)) = e) :
    feed scr d p = if ! e.mousePrevLeft && e.mouseLeft then handlePress scr (e.record true)
      else if e.mouseLeft && e.mousePrevLeft && e.activeApp = some .paint && e.dragging = none then
        (e.call (.paintLine d.mouseX d.mouseY e.mouseX e.mouseY)).record false
      else e.record false := by
  rw [feed_packet hmpkt hhalted hp, handleMousePacket]
  simp only
  rw [scrolls_still hp, if_neg Bool.false_ne_true, he]

theorem moveCursor_mouseX {p : Packet} (h : 0 ≤ d.mouseX + int8 p.b1 ∧
    d.mouseX + int8 p.b1 ≤ scr.width - 16) : (moveCursor scr p d).mouseX = d.mouseX + int8 p.b1 := by
  change clampTo (d.mouseX + int8 p.b1) (scr.width - 16) = _
  unfold clampTo
  simp only
  rw [if_neg (not_lt.mpr h.1), if_neg (not_lt.mpr h.2)]

theorem moveCursor_mouseY {p : Packet} (h : 0 ≤ d.mouseY - int8 p.b2 ∧
    d.mouseY - int8 p.b2 ≤ scr.height - 24) : (moveCursor scr p d).mouseY = d.mouseY - int8 p.b2 := by
  change clampTo (d.mouseY - int8 p.b2) (scr.height - 24) = _
  unfold clampTo
  simp only
  rw [if_neg (not_lt.mpr h.1), if_neg (not_lt.mpr h.2)]

/-- A packet that stays on the smallest screen. -/
def Packet.Stays (p : Packet) (x y : ℤ) : Prop :=
  (0 ≤ x + int8 p.b1 ∧ x + int8 p.b1 ≤ 624) ∧ 0 ≤ y - int8 p.b2 ∧ y - int8 p.b2 ≤ 456

instance (p : Packet) (x y : ℤ) : Decidable (p.Stays x y) := inferInstanceAs (Decidable (_ ∧ _))

variable {base : State} {x y : ℤ} {left : Bool}

theorem Idle.moveCursor (h : Idle d base x y left) (hwidth : 640 ≤ scr.width)
    (hheight : 480 ≤ scr.height) {p : Packet} (hp : p.Stays x y) :
    Idle (moveCursor scr p d) base (x + int8 p.b1) (y - int8 p.b2) p.down where
  wins := h.wins
  ztop := h.ztop
  mouseX := by
    obtain ⟨⟨hleft, hright⟩, -⟩ := hp
    rw [moveCursor_mouseX, h.mouseX]
    rw [h.mouseX]
    omega
  mouseY := by
    obtain ⟨-, htop, hbottom⟩ := hp
    rw [moveCursor_mouseY, h.mouseY]
    rw [h.mouseY]
    omega
  mouseLeft := rfl
  mpkt := h.mpkt
  halted := h.halted
  startOpen := h.startOpen
  dragging := h.dragging

theorem Idle.endDrag (h : Idle d base x y left) : Idle (endDrag d) base x y left := by
  unfold Orion.Desktop.endDrag
  split
  · exact ⟨h.wins, h.ztop, h.mouseX, h.mouseY, h.mouseLeft, h.mpkt, h.halted, h.startOpen, rfl⟩
  · exact h

theorem Idle.record (h : Idle d base x y left) (b : Bool) : Idle (d.record b) base x y left :=
  ⟨h.wins, h.ztop, h.mouseX, h.mouseY, h.mouseLeft, h.mpkt, h.halted, h.startOpen, h.dragging⟩

/-- A packet while nothing is dragged, up to the press. -/
theorem Idle.packet (h : Idle d base x y left) (hwidth : 640 ≤ scr.width) (hheight : 480 ≤ scr.height)
    {p : Packet} (hstill : p.Still) (hstays : p.Stays x y) :
    ∃ e, Idle e base (x + int8 p.b1) (y - int8 p.b2) p.down ∧ e.mousePrevLeft = left ∧
      feed scr d p = if ! e.mousePrevLeft && e.mouseLeft then handlePress scr (e.record true)
        else if e.mouseLeft && e.mousePrevLeft && e.activeApp = some .paint && e.dragging = none then
          (e.call (.paintLine d.mouseX d.mouseY e.mouseX e.mouseY)).record false
        else e.record false := by
  have hmoved := h.moveCursor hwidth hheight hstays
  have hnone : dragWindow scr (Orion.Desktop.moveCursor scr p d) = Orion.Desktop.moveCursor scr p d := by
    rw [dragWindow, hmoved.dragging]
  refine ⟨Orion.Desktop.endDrag (Orion.Desktop.moveCursor scr p d), hmoved.endDrag, ?_, ?_⟩
  · rw [(endDrag_frame _).2.1]
    exact h.mouseLeft
  · exact feed_still h.mpkt h.halted hstill (by rw [hnone])

/-- The cursor moves with the button up. -/
theorem Idle.move (h : Idle d base x y left) (hwidth : 640 ≤ scr.width) (hheight : 480 ≤ scr.height)
    (p : Packet) (hp : p.Still ∧ p.down = false ∧ p.Stays x y) :
    Idle (feed scr d p) base (x + int8 p.b1) (y - int8 p.b2) false := by
  obtain ⟨hstill, hup, hstays⟩ := hp
  obtain ⟨e, hidle, -, hfeed⟩ := h.packet hwidth hheight hstill hstays
  rw [hup] at hidle
  rw [hfeed, hidle.mouseLeft, Bool.and_false, Bool.false_and, if_neg Bool.false_ne_true,
    Bool.false_and, Bool.false_and, if_neg Bool.false_ne_true]
  exact hidle.record false

/-- The button goes down where the cursor is. -/
theorem Idle.press (h : Idle d base x y false) (hwidth : 640 ≤ scr.width)
    (hheight : 480 ≤ scr.height) (hp : Packet.Stays ⟨9, 0, 0, 0⟩ x y) :
    ∃ e, Idle e base x y true ∧ feed scr d ⟨9, 0, 0, 0⟩ = handlePress scr e := by
  obtain ⟨e, hidle, hprev, hfeed⟩ := h.packet hwidth hheight (p := ⟨9, 0, 0, 0⟩) (by decide) hp
  have hzero : int8 0 = 0 := by decide
  simp only [hzero, add_zero, sub_zero] at hidle
  refine ⟨e.record true, hidle.record true, ?_⟩
  have hdown : e.mouseLeft = true := hidle.mouseLeft
  rw [hfeed, hprev, hdown]
  rfl

/-- A press on the title of a window. -/
theorem pressWindow_title {app : App}
    (hclose : d.cursorIn ((d.wins app).x + (d.wins app).w - 40) ((d.wins app).y + 5) 34 31 = false)
    (htitle : d.cursorIn (d.wins app).x (d.wins app).y (d.wins app).w titleH = true) :
    d.pressWindow app = { d.raise app with
      dragging := some app
      dragDx := d.mouseX - (d.wins app).x
      dragDy := d.mouseY - (d.wins app).y } := by
  unfold State.pressWindow
  simp only
  split
  · rename_i hin
    exact absurd (hclose.symm.trans hin) Bool.false_ne_true
  · split
    · rfl
    · rename_i hout
      exact absurd htitle hout

/-- **A window that does not fit** goes above the screen with every drag. -/
theorem dragTo_pushed {w : Window} (h : scr.taskbarY < w.h) :
    (dragTo scr d w).y = scr.taskbarY - w.h := by
  unfold Platform.taskbarY at *
  unfold dragTo
  simp only
  split_ifs <;> omega

/-- The button stays down: the window that is dragged follows. -/
theorem feed_drag (hmpkt : d.mpkt = []) (hhalted : d.halted = false) (hleft : d.mouseLeft = true)
    {app : App} (hdrag : d.dragging = some app) {p : Packet} (hstill : p.Still)
    (hdown : p.down = true) : (feed scr d p).wins =
      (d.setWin app (dragTo scr (Orion.Desktop.moveCursor scr p d) (d.wins app))).wins := by
  let w := dragTo scr (Orion.Desktop.moveCursor scr p d) (d.wins app)
  have hmoved : dragWindow scr (Orion.Desktop.moveCursor scr p d) =
      (Orion.Desktop.moveCursor scr p d).setWin app w := by
    have hdragging : (Orion.Desktop.moveCursor scr p d).dragging = some app := hdrag
    have hheld : (Orion.Desktop.moveCursor scr p d).mouseLeft = true := hdown
    simp only [dragWindow, hdragging, if_pos hheld]
    rfl
  have hkept : Orion.Desktop.endDrag ((Orion.Desktop.moveCursor scr p d).setWin app w) =
      (Orion.Desktop.moveCursor scr p d).setWin app w := by
    have hnot : ¬ (d.mouseLeft && ! p.down) = true := by
      rw [hdown]
      simp
    exact if_neg hnot
  have hprev : ((Orion.Desktop.moveCursor scr p d).setWin app w).mousePrevLeft = true := hleft
  rw [feed_still hmpkt hhalted hstill ((congrArg Orion.Desktop.endDrag hmoved).trans hkept), hprev,
    Bool.not_true, Bool.false_and, if_neg Bool.false_ne_true]
  split <;> rfl

/-- The cursor goes to the icon of the browser, which is opened; then the browser is dragged. -/
def pushUp : List Packet :=
  [⟨8, 128, 0, 0⟩, ⟨8, 128, 0, 0⟩, ⟨8, 128, 0, 0⟩, ⟨8, 128, 0, 0⟩, ⟨8, 132, 0, 0⟩, ⟨9, 0, 0, 0⟩,
    ⟨8, 0, 0, 0⟩, ⟨8, 127, 127, 0⟩, ⟨8, 109, 127, 0⟩, ⟨8, 0, 66, 0⟩, ⟨9, 0, 0, 0⟩, ⟨9, 0, 0, 0⟩]

theorem init_idle : Idle init init 700 420 false := ⟨rfl, rfl, rfl, rfl, rfl, rfl, rfl, rfl, rfl⟩

/-- A press on the icon of the browser. -/
theorem handlePress_icon (h : Idle d init 64 420 true) (hheight : 480 ≤ scr.height) :
    handlePress scr d = d.focusApp .browser := by
  have hy : d.mouseY < scr.taskbarY := by
    rw [h.mouseY, Platform.taskbarY, taskbarH]
    omega
  obtain ⟨hstart, htask⟩ := above_taskbar hy
  have hicon : iconAt d = some .browser := by
    simp only [iconAt, State.cursorIn, h.mouseX, h.mouseY]
    decide
  rw [handlePress, hstart, h.startOpen, htask, hicon]
  rfl

theorem Idle.focusApp (h : Idle d base x y left) (app : App) :
    Idle (d.focusApp app) (base.focusApp app) x y left where
  wins := by
    unfold State.focusApp State.setWin
    simp only
    rw [h.wins, h.ztop]
  ztop := by
    unfold State.focusApp
    simp only
    rw [h.ztop]
  mouseX := h.mouseX
  mouseY := h.mouseY
  mouseLeft := h.mouseLeft
  mpkt := h.mpkt
  halted := h.halted
  startOpen := rfl
  dragging := h.dragging

/-- A press on the title of the browser in front. -/
theorem handlePress_title (h : Idle d (init.focusApp .browser) 300 100 true)
    (hheight : 480 ≤ scr.height) : handlePress scr d = { d.raise .browser with
      dragging := some .browser
      dragDx := d.mouseX - (d.wins .browser).x
      dragDy := d.mouseY - (d.wins .browser).y } := by
  have hy : d.mouseY < scr.taskbarY := by
    rw [h.mouseY, Platform.taskbarY, taskbarH]
    omega
  have hlayered : Layered d := by
    refine (init_layered.focusApp .browser).congr (fun a => ?_) h.ztop
    rw [h.wins]
  have hicon : iconAt d = none := by
    simp only [iconAt, State.cursorIn, h.mouseX, h.mouseY]
    decide
  have htop : TopAt d d.mouseX d.mouseY .browser := by
    rw [h.mouseX, h.mouseY, TopAt, h.wins]
    refine ⟨by decide, fun b hb => ?_⟩
    revert hb
    cases b <;> decide
  rw [handlePress_window hlayered h.startOpen hy hicon htop]
  apply pressWindow_title
  · simp only [State.cursorIn, h.mouseX, h.mouseY, h.wins]
    decide
  · simp only [State.cursorIn, h.mouseX, h.mouseY, h.wins]
    decide

/-- The browser is drawn above the screen in the end. -/
theorem pushUp_browser (hwidth : 640 ≤ scr.width) (hheight : 480 ≤ scr.height)
    (hsmall : scr.height < 644) : (((pushUp.foldl (feed scr) init).wins .browser).visible = true) ∧
      ((pushUp.foldl (feed scr) init).wins .browser).y < 0 := by
  have hfirst := init_idle.move hwidth hheight ⟨8, 128, 0, 0⟩ (by decide)
  have hsecond := hfirst.move hwidth hheight ⟨8, 128, 0, 0⟩ (by decide)
  have hthird := hsecond.move hwidth hheight ⟨8, 128, 0, 0⟩ (by decide)
  have hfourth := hthird.move hwidth hheight ⟨8, 128, 0, 0⟩ (by decide)
  have hicon := hfourth.move hwidth hheight ⟨8, 132, 0, 0⟩ (by decide)
  obtain ⟨d₁, hpressed, hfeed⟩ := hicon.press hwidth hheight (by decide)
  rw [handlePress_icon hpressed hheight] at hfeed
  have hopened := hpressed.focusApp .browser
  rw [← hfeed] at hopened
  have hreleased := hopened.move hwidth hheight ⟨8, 0, 0, 0⟩ (by decide)
  have hdown := hreleased.move hwidth hheight ⟨8, 127, 127, 0⟩ (by decide)
  have hright := hdown.move hwidth hheight ⟨8, 109, 127, 0⟩ (by decide)
  have htitle := hright.move hwidth hheight ⟨8, 0, 66, 0⟩ (by decide)
  obtain ⟨d₂, hheld, hfeed₂⟩ := htitle.press hwidth hheight (by decide)
  rw [handlePress_title hheld hheight] at hfeed₂
  have hlast := congrArg (fun d => (feed scr d ⟨9, 0, 0, 0⟩).wins .browser) hfeed₂
  have hdragged := congrFun (@feed_drag scr { d₂.raise .browser with
    dragging := some .browser
    dragDx := d₂.mouseX - (d₂.wins .browser).x
    dragDy := d₂.mouseY - (d₂.wins .browser).y } hheld.mpkt hheld.halted hheld.mouseLeft
      .browser rfl ⟨9, 0, 0, 0⟩ (by decide) (by decide)) .browser
  have hwindow : (pushUp.foldl (feed scr) init).wins .browser = _ :=
    (hlast.trans hdragged).trans (State.setWin_self _ _ _)
  have hraised : (d₂.raise .browser).wins .browser = { d₂.wins .browser with z := d₂.ztop + 1 } :=
    d₂.setWin_self .browser _
  have hvisible : ((d₂.raise .browser).wins .browser).visible = true := by
    rw [hraised, hheld.wins]
    rfl
  have hheight₂ : ((d₂.raise .browser).wins .browser).h = 590 := by
    rw [hraised, hheld.wins]
    rfl
  rw [hwindow]
  refine ⟨hvisible, ?_⟩
  have htaskbar : scr.taskbarY = scr.height - 54 := rfl
  rw [dragTo_pushed]
  · rw [hheight₂, htaskbar]
    omega
  · rw [hheight₂, htaskbar]
    omega

end

/-- **Every window stays within reach exactly if the browser fits above the taskbar.** -/
theorem windows_reachable_iff (scr : Platform) (hwidth : 640 ≤ scr.width) (hheight : 480 ≤ scr.height) :
    (∀ (bytes : List UInt8) (app : App), ((after scr (bytes.map .mouse)).wins app).visible = true →
      ((after scr (bytes.map .mouse)).wins app).Reachable scr) ↔ 644 ≤ scr.height := by
  constructor
  · intro hreach
    by_contra hsmall
    obtain ⟨hvisible, habove⟩ := pushUp_browser hwidth hheight (not_le.mp hsmall)
    have hbrowser := hreach (pushUp.flatMap (Packet.bytes scr)) .browser
    rw [after_bytes] at hbrowser
    exact absurd (hbrowser hvisible).1 (not_le.mpr habove)
  · intro htall bytes app _
    have htaskbar : scr.taskbarY = scr.height - 54 := rfl
    have hfits : 590 ≤ scr.taskbarY := by omega
    exact (after_orderly hfits (bytes.map .mouse) app).reachable hwidth hheight

theorem windows_reachable_smoke :
    ((after smallScreen (dragBytes.map .mouse)).wins .terminal).visible = true ∧
      ((after smallScreen (dragBytes.map .mouse)).wins .terminal).Reachable smallScreen := by
  have hvisible : ((after smallScreen (dragBytes.map .mouse)).wins .terminal).visible = true := by
    decide +kernel
  exact ⟨hvisible, (windows_reachable_iff smallScreen (by decide) (by decide)).mpr (by decide) dragBytes
    .terminal hvisible⟩

/-- On 800 by 600 the title of the browser goes above the screen. -/
theorem browser_out_of_reach :
    ((after ⟨800, 600, 3⟩ ((pushUp.flatMap (Packet.bytes ⟨800, 600, 3⟩)).map .mouse)).wins
        .browser).visible = true ∧
      ¬ ((after ⟨800, 600, 3⟩ ((pushUp.flatMap (Packet.bytes ⟨800, 600, 3⟩)).map .mouse)).wins
        .browser).Reachable ⟨800, 600, 3⟩ := by
  rw [after_bytes]
  have hpushed := @pushUp_browser ⟨800, 600, 3⟩ (by decide) (by decide) (by decide)
  exact ⟨hpushed.1, fun hreach => absurd hreach.1 (not_le.mpr hpushed.2)⟩

end Orion.Desktop
