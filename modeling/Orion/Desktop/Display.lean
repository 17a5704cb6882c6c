import Orion.Desktop.Cursor
import Orion.Desktop.Steps

/-!
# What is on the screen (`kernel/desktop.c`)

The handlers draw: most of them the whole scene, some the taskbar or the canvas alone, and the cursor is
taken off before and put on behind.  What a painting draws is left open; that it ends in `gfx_pixel` and
`gfx_rect` is not.
-/

namespace Orion.Desktop

open Orion.Lib Orion.Graphics

/-! ## The source -/

/-- What `handle_press` draws at its end. -/
inductive Shown where
  | scene
  | brush
  | goodbye
  deriving Repr, DecidableEq

/-- The desktop with its screen; `scene` is the state that was painted last as a whole, `drawn` what was
drawn but for the cursor, and `painted` counts the paintings. -/
structure Display where
  desk : State
  screen : Screen
  scene : State
  drawn : List Draw
  painted : ℕ

section

-- what the paintings draw, by their number
variable (bi : BootInfo) (scr : Platform) (painting : ℕ → List Draw)

namespace Display

variable (t : Display)

def restore : Display := { t with screen := cursorRestore bi t.screen }

def refresh : Display := { t with screen := cursorRefresh bi t.desk.mouseX t.desk.mouseY t.screen }

def draw (calls : List Draw) : Display :=
  { t with
    screen := { t.screen with fb := drawAll bi t.screen.fb calls }
    drawn := t.drawn ++ calls
    painted := t.painted + 1 }

def paint : Display := t.draw bi (painting t.painted)

/-- The wallpaper, the icons, the windows, the menu and the taskbar. -/
def paintScene : Display := { t.paint bi painting with scene := t.desk }

def redraw : Display := ((t.restore bi).paintScene bi painting).refresh bi

end Display

/-- A press on the canvas draws there and nowhere else. -/
def pressShown (d : State) : Shown :=
  if onStartButton scr d then .scene
  else if d.startOpen then
    match menuEntryAt scr d with
    | some _ => .scene
    | none => if onShutDown scr d then .goodbye else .scene
  else
    match taskButtonAt scr d with
    | some _ => .scene
    | none =>
      match iconAt d with
      | some _ => .scene
      | none =>
        match d.topWindowAt d.mouseX d.mouseY with
        | some .paint =>
          let w := d.wins .paint
          if d.cursorIn (w.x + w.w - 40) (w.y + 5) 34 31 then .scene
          else if d.cursorIn w.x w.y w.w titleH then .scene
          else if d.cursorIn (w.x + 1 + 96) (w.y + titleH + 1 + 8) 60 30 then .scene
          else .brush
        | _ => .scene

namespace Display

def press (t : Display) : Display :=
  let shown := pressShown scr t.desk
  let t := { t with desk := handlePress scr t.desk }
  match shown with
  | .scene => t.redraw bi painting
  | .brush => ((t.restore bi).paint bi painting).refresh bi
  | .goodbye => t.draw bi (.rect 0 0 bi.width bi.height 0x05080B :: painting t.painted)

def packet (p : Packet) (t : Display) : Display :=
  let oldX := t.desk.mouseX
  let oldY := t.desk.mouseY
  let t := { t.restore bi with desk := moveCursor scr p t.desk }
  if scrolls scr p t.desk then
    { t with desk := (t.desk.call (.velaScrollBy (- wheelOf scr p * 48))).record false }.redraw bi painting
  else
    let needsRedraw := t.desk.dragging.isSome && t.desk.mouseLeft
    let t := { t with desk := endDrag (dragWindow scr t.desk) }
    if ! t.desk.mousePrevLeft && t.desk.mouseLeft then
      ({ t with desk := t.desk.record true }.refresh bi).press bi scr painting
    else
      let t :=
        if t.desk.mouseLeft && t.desk.mousePrevLeft && t.desk.activeApp = some .paint && t.desk.dragging = none then
          { t with desk := (t.desk.call (.paintLine oldX oldY t.desk.mouseX t.desk.mouseY)).record false }.paint bi
            painting
        else { t with desk := t.desk.record false }
      (if needsRedraw then t.paintScene bi painting else t).refresh bi

/-- `desktop_mouse_byte` -/
def mouseByte (b : UInt8) (t : Display) : Display :=
  if t.desk.mpkt = [] ∧ b &&& 0x08 = 0 then t
  else
    let mpkt := t.desk.mpkt ++ [b]
    if mpkt.length ≥ (if scr.packetSize = 4 then 4 else 3) then
      { t with desk := { t.desk with mpkt := [] } }.packet bi scr painting
        ⟨mpkt.getD 0 0, mpkt.getD 1 0, mpkt.getD 2 0, mpkt.getD 3 0⟩
    else { t with desk := { t.desk with mpkt := mpkt } }

end Display

/-- The state that a key has painted.  A command that opens the browser is still on its line. -/
def keyScene (s : UInt8) (d : State) : Option State :=
  let e := keyScancode s d
  if s = 0x2a ∨ s = 0x36 ∨ s = 0xaa ∨ s = 0xb6 ∨ s &&& 0x80 ≠ 0 then none
  else if s = 0x01 then if d.startOpen then some e else none
  else if s = 0x1c then
    match d.activeApp with
    | some .terminal =>
      if d.termCmd = ascii "vela" ∨ d.termCmd = ascii "browser" then some { e with termCmd := d.termCmd } else some e
    | some .notes => if d.notes.length < noteCap - 1 then some e else none
    | some .browser => some e
    | _ => none
  else if s = 0x0e then
    match d.activeApp with
    | some .terminal => if d.termCmd ≠ [] then some e else none
    | some .notes => if d.notes ≠ [] then some e else none
    | some .browser => some e
    | _ => none
  else
    match keyChar (if d.shiftDown then shiftMap else normalMap) s, d.activeApp with
    | some _, some .terminal => if d.termCmd.length < termCap - 1 then some e else none
    | some _, some .notes => if d.notes.length < noteCap - 1 then some e else none
    | some _, some .browser => some e
    | _, _ => none

namespace Display

def key (s : UInt8) (t : Display) : Display :=
  match keyScene s t.desk with
  | some d => { { t with desk := d }.redraw bi painting with desk := keyScancode s t.desk }
  | none => { t with desk := keyScancode s t.desk }

/-- `desktop_tick` -/
def tick (sec : ℕ) (t : Display) : Display :=
  if sec ≠ t.desk.lastSecond then
    (({ t with desk := { t.desk with lastSecond := sec } }.restore bi).paint bi painting).refresh bi
  else t

def step (t : Display) (e : Event) : Display :=
  if t.desk.halted then t
  else
    match e with
    | .key s => t.key bi painting s
    | .mouse b => t.mouseByte bi scr painting b
    | .tick sec => t.tick bi painting sec

/-- `desktop_init` -/
def start (fb : Framebuffer) : Display :=
  ⟨init, ⟨fb, fun _ => 0, false, 0, 0⟩, init, [], 0⟩

def after (fb : Framebuffer) (events : List Event) : Display :=
  events.foldl (step bi scr painting) ((start fb).redraw bi painting)

end Display

end

/-! ## The picture -/

section

variable {bi : BootInfo} {scr : Platform} {painting : ℕ → List Draw} {fb : Framebuffer}

namespace Display

/-- What was drawn without the cursor. -/
def picture (bi : BootInfo) (fb : Framebuffer) (t : Display) : Framebuffer := drawAll bi fb t.drawn

/-- The cursor is off. -/
structure Off (bi : BootInfo) (fb : Framebuffer) (t : Display) : Prop where
  fb_eq : t.screen.fb = t.picture bi fb
  saved : t.screen.cursorSaved = false

/-- The cursor is where the mouse is. -/
structure On (bi : BootInfo) (fb : Framebuffer) (t : Display) : Prop where
  covered : CursorOver bi (t.picture bi fb) t.screen
  atX : t.screen.cursorSx = t.desk.mouseX
  atY : t.screen.cursorSy = t.desk.mouseY

variable {t : Display}

theorem CursorOver.off (h : CursorOver bi (t.picture bi fb) t.screen) (hfb : bi.Holds fb) :
    (t.restore bi).Off bi fb := by
  have hrestore := h.restore (hfb.drawAll t.drawn)
  constructor
  · show (cursorRestore bi t.screen).fb = t.picture bi fb
    rw [hrestore]
  · show (cursorRestore bi t.screen).cursorSaved = false
    rw [hrestore]

/-- There is nothing to put back. -/
theorem Off.restore (h : t.Off bi fb) : t.restore bi = t := by
  show { t with screen := cursorRestore bi t.screen } = t
  rw [cursorRestore, h.saved]
  rfl

theorem Off.draw (h : t.Off bi fb) (calls : List Draw) : (t.draw bi calls).Off bi fb where
  fb_eq := by
    show drawAll bi t.screen.fb calls = drawAll bi fb (t.drawn ++ calls)
    rw [drawAll_append, h.fb_eq]
    rfl
  saved := h.saved

theorem Off.refresh (h : t.Off bi fb) : (t.refresh bi).On bi fb where
  covered := by
    have hover : CursorOver bi t.screen.fb (cursorRefresh bi t.desk.mouseX t.desk.mouseY t.screen) :=
      cursorRefresh_over t.desk.mouseX t.desk.mouseY t.screen
    rw [h.fb_eq] at hover
    exact hover
  atX := rfl
  atY := rfl

theorem On.off (h : t.On bi fb) (hfb : bi.Holds fb) : (t.restore bi).Off bi fb := CursorOver.off h.covered hfb

/-- Another state, with the mouse at the same place. -/
theorem On.withDesk (h : t.On bi fb) {d : State} (hx : d.mouseX = t.desk.mouseX)
    (hy : d.mouseY = t.desk.mouseY) : { t with desk := d }.On bi fb :=
  ⟨h.covered, h.atX.trans hx.symm, h.atY.trans hy.symm⟩

theorem Off.withDesk (h : t.Off bi fb) (d : State) : { t with desk := d }.Off bi fb := ⟨h.fb_eq, h.saved⟩

theorem Off.redraw (h : t.Off bi fb) : (t.redraw bi painting).On bi fb := by
  rw [Display.redraw, h.restore]
  exact Off.refresh ⟨(h.draw _).fb_eq, (h.draw _).saved⟩

theorem On.redraw (h : t.On bi fb) (hfb : bi.Holds fb) : (t.redraw bi painting).On bi fb :=
  Off.refresh ⟨((h.off hfb).draw _).fb_eq, ((h.off hfb).draw _).saved⟩

end Display

/-! ## The machine is halted by one press alone -/

theorem keyScancode_halted (s : UInt8) (d : State) : (keyScancode s d).halted = d.halted := by
  have hchar : ∀ c, (keyAscii c d).halted = d.halted := by
    intro c
    unfold keyAscii
    split
    · split <;> rfl
    · split <;> rfl
    · rfl
    · rfl
  have henter : (keyEnter d).halted = d.halted := by
    unfold keyEnter
    split
    · unfold terminalExec
      simp only
      split <;> rfl
    · split <;> rfl
    · rfl
    · rfl
  have hback : (keyBackspace d).halted = d.halted := by
    unfold keyBackspace
    split <;> rfl
  unfold keyScancode
  split
  · rfl
  split
  · rfl
  split
  · rfl
  split
  · rfl
  split
  · exact henter
  split
  · exact hback
  split
  · exact hchar _
  · rfl

theorem State.pressContent_halted (d : State) (app : App) (w : Window) :
    (d.pressContent app w).halted = d.halted := by
  unfold State.pressContent
  cases app with
  | paint =>
    simp only
    split <;> rfl
  | browser =>
    simp only [State.pressBrowser]
    split_ifs <;> rfl
  | network =>
    simp only
    split <;> rfl
  | terminal => rfl
  | files => rfl
  | notes => rfl
  | about => rfl

theorem State.pressWindow_halted (d : State) (app : App) : (d.pressWindow app).halted = d.halted := by
  unfold State.pressWindow
  simp only
  split
  · rfl
  · split
    · rfl
    · exact State.pressContent_halted _ app _

/-- Nothing but the good-bye stops the machine. -/
theorem handlePress_halted {d : State} (h : d.halted = false) :
    (handlePress scr d).halted = true ↔ pressShown scr d = .goodbye := by
  unfold handlePress pressShown
  split
  · simp [h]
  · split
    · unfold pressMenu
      cases menuEntryAt scr d with
      | some app => simp [State.focusApp, State.setWin, h]
      | none =>
        simp only
        split
        · simp
        · simp [h]
    · cases taskButtonAt scr d with
      | some app =>
        simp only [pressTaskButton]
        split
        · simp [State.setWin, h]
        · simp [State.focusApp, State.setWin, h]
      | none =>
        cases iconAt d with
        | some app => simp [State.focusApp, State.setWin, h]
        | none =>
          cases d.topWindowAt d.mouseX d.mouseY with
          | some app =>
            simp only [State.pressWindow_halted, h]
            cases app <;> simp
            split_ifs <;> simp
          | none => simp [h]

/-! ## What a key paints -/

theorem keyScene_some {s : UInt8} {d e : State} (h : keyScene s d = some e) :
    e = keyScancode s d ∨
      ((d.termCmd = ascii "vela" ∨ d.termCmd = ascii "browser") ∧
        keyScancode s d = { (d.call (.command d.termCmd)).focusApp .browser with termCmd := [] } ∧
        e = { keyScancode s d with termCmd := d.termCmd }) := by
  unfold keyScene at h
  simp only at h
  split at h
  · cases h
  split at h
  · split at h
    · exact .inl (Option.some.inj h).symm
    · cases h
  split at h
  · next hs =>
    split at h
    · next happ =>
      split at h
      · next hcmd =>
        refine .inr ⟨hcmd, ?_, (Option.some.inj h).symm⟩
        subst hs
        have henter : keyScancode 0x1c d = terminalExec d := by
          show keyEnter d = _
          rw [keyEnter, happ]
        rw [henter, terminalExec]
        exact if_pos hcmd
      · exact .inl (Option.some.inj h).symm
    · split at h
      · exact .inl (Option.some.inj h).symm
      · cases h
    · exact .inl (Option.some.inj h).symm
    · cases h
  split at h
  · split at h
    · split at h
      · exact .inl (Option.some.inj h).symm
      · cases h
    · split at h
      · exact .inl (Option.some.inj h).symm
      · cases h
    · exact .inl (Option.some.inj h).symm
    · cases h
  split at h
  · split at h
    · exact .inl (Option.some.inj h).symm
    · cases h
  · split at h
    · exact .inl (Option.some.inj h).symm
    · cases h
  · exact .inl (Option.some.inj h).symm
  · cases h

/-! ## Every run -/

theorem moveCursor_halted (p : Packet) (d : State) : (moveCursor scr p d).halted = d.halted := rfl

theorem dragWindow_halted (d : State) : (dragWindow scr d).halted = d.halted := by
  unfold dragWindow
  split
  · split <;> rfl
  · rfl

theorem endDrag_halted (d : State) : (endDrag d).halted = d.halted := by
  unfold endDrag
  split <;> rfl

namespace Display

/-- The cursor is on the picture, or the machine is halted and shows the picture alone. -/
def Settled (bi : BootInfo) (fb : Framebuffer) (t : Display) : Prop :=
  (t.desk.halted = false → t.On bi fb) ∧
    (t.desk.halted = true → bi.Described → t.screen.fb = t.picture bi fb)

variable {t : Display}

theorem On.settled (h : t.On bi fb) (hhalted : t.desk.halted = false) : t.Settled bi fb :=
  ⟨fun _ => h, fun htrue => absurd htrue (by rw [hhalted]; exact Bool.false_ne_true)⟩

/-- The good-bye covers the cursor. -/
theorem On.goodbye (h : t.On bi fb) (hbi : bi.Described) (c : UInt32) (calls : List Draw) :
    drawAll bi t.screen.fb (.rect 0 0 bi.width bi.height c :: calls) =
      drawAll bi (t.picture bi fb) (.rect 0 0 bi.width bi.height c :: calls) := by
  have hsame : ∀ k, (∀ i j, bi.cell i j ≠ some k) → t.screen.fb k = t.picture bi fb k := by
    intro k hk
    rw [h.covered.fb_eq]
    refine cursorDraw_of_not _ _ fun p _ hcell => ?_
    rw [blockCell, BootInfo.cellAt_eq hbi] at hcell
    exact hk _ _ hcell
  have hwhole := gfxRect_whole hbi hsame c
  show drawAll bi (gfxRect (some bi) t.screen.fb 0 0 bi.width bi.height c) calls = _
  rw [hwhole]
  rfl

theorem On.press (h : t.On bi fb) (hfb : bi.Holds fb) (hhalted : t.desk.halted = false) :
    (t.press bi scr painting).Settled bi fb := by
  have hiff : (handlePress scr t.desk).halted = true ↔ pressShown scr t.desk = .goodbye :=
    handlePress_halted hhalted
  have hoff : ({ t with desk := handlePress scr t.desk } : Display).restore bi |>.Off bi fb :=
    (h.off hfb).withDesk _
  unfold Display.press
  cases hshown : pressShown scr t.desk with
  | scene =>
    have hruns : (handlePress scr t.desk).halted = false := by
      rw [Bool.eq_false_iff, ne_eq, hiff, hshown]
      exact Shown.noConfusion
    refine On.settled ?_ hruns
    exact Off.refresh ⟨(hoff.draw _).fb_eq, (hoff.draw _).saved⟩
  | brush =>
    have hruns : (handlePress scr t.desk).halted = false := by
      rw [Bool.eq_false_iff, ne_eq, hiff, hshown]
      exact Shown.noConfusion
    exact On.settled (hoff.draw _).refresh hruns
  | goodbye =>
    refine ⟨fun hruns => ?_, fun _ hbi => ?_⟩
    · have hstops := hiff.mpr hshown
      exact absurd (hstops.symm.trans hruns) Bool.noConfusion
    · show drawAll bi t.screen.fb (.rect 0 0 bi.width bi.height 0x05080B :: painting t.painted) =
        drawAll bi fb (t.drawn ++ .rect 0 0 bi.width bi.height 0x05080B :: painting t.painted)
      rw [h.goodbye hbi, drawAll_append]
      rfl

theorem On.packet (h : t.On bi fb) (hfb : bi.Holds fb) (hhalted : t.desk.halted = false) (p : Packet) :
    (t.packet bi scr painting p).Settled bi fb := by
  have hoff := h.off hfb
  have hmoved : (endDrag (dragWindow scr (moveCursor scr p t.desk))).halted = false := by
    rw [endDrag_halted, dragWindow_halted, moveCursor_halted, hhalted]
  unfold Display.packet
  simp only
  split
  · exact On.settled (hoff.withDesk _).redraw hhalted
  split
  · exact On.press (hoff.withDesk _).refresh hfb hmoved
  · split_ifs
    · exact On.settled (Off.refresh ⟨((hoff.draw _).draw _).fb_eq, ((hoff.draw _).draw _).saved⟩) hmoved
    · exact On.settled (Off.refresh ⟨(hoff.draw _).fb_eq, (hoff.draw _).saved⟩) hmoved
    · exact On.settled (Off.refresh ⟨(hoff.draw _).fb_eq, (hoff.draw _).saved⟩) hmoved
    · exact On.settled (Off.refresh ⟨hoff.fb_eq, hoff.saved⟩) hmoved

theorem On.mouseByte (h : t.On bi fb) (hfb : bi.Holds fb) (hhalted : t.desk.halted = false) (b : UInt8) :
    (t.mouseByte bi scr painting b).Settled bi fb := by
  unfold Display.mouseByte
  split
  · exact h.settled hhalted
  · by_cases hlen : (t.desk.mpkt ++ [b]).length ≥ (if scr.packetSize = 4 then 4 else 3)
    · rw [if_pos hlen]
      exact On.packet (t := { t with desk := { t.desk with mpkt := [] } }) (h.withDesk rfl rfl) hfb hhalted _
    · rw [if_neg hlen]
      exact On.settled (t := { t with desk := { t.desk with mpkt := t.desk.mpkt ++ [b] } })
        (h.withDesk rfl rfl) hhalted

theorem keyScancode_mouse (s : UInt8) (d : State) :
    (keyScancode s d).mouseX = d.mouseX ∧ (keyScancode s d).mouseY = d.mouseY := by
  obtain hs | hs := keyScancode_cases s d
  · exact ⟨hs.mouseX, hs.mouseY⟩
  · exact ⟨hs.mouseX, hs.mouseY⟩

theorem keyScene_mouse {s : UInt8} {d e : State} (h : keyScene s d = some e) :
    e.mouseX = d.mouseX ∧ e.mouseY = d.mouseY := by
  obtain ⟨hx, hy⟩ := keyScancode_mouse s d
  obtain rfl | ⟨-, -, rfl⟩ := keyScene_some h
  · exact ⟨hx, hy⟩
  · exact ⟨hx, hy⟩

theorem On.key (h : t.On bi fb) (hfb : bi.Holds fb) (hhalted : t.desk.halted = false) (s : UInt8) :
    (t.key bi painting s).Settled bi fb := by
  have hruns : (keyScancode s t.desk).halted = false := (keyScancode_halted s t.desk).trans hhalted
  obtain ⟨hx, hy⟩ := keyScancode_mouse s t.desk
  unfold Display.key
  cases hscene : keyScene s t.desk with
  | none => exact On.settled (h.withDesk hx hy) hruns
  | some d =>
    obtain ⟨hdx, hdy⟩ := keyScene_mouse hscene
    refine On.settled (On.withDesk ?_ (hx.trans hdx.symm) (hy.trans hdy.symm)) hruns
    exact On.redraw (h.withDesk hdx hdy) hfb

theorem On.tick (h : t.On bi fb) (hfb : bi.Holds fb) (hhalted : t.desk.halted = false) (sec : ℕ) :
    (t.tick bi painting sec).Settled bi fb := by
  unfold Display.tick
  split
  · exact On.settled (((h.off hfb).withDesk _).draw _).refresh hhalted
  · exact h.settled hhalted

theorem Settled.step (h : t.Settled bi fb) (hfb : bi.Holds fb) (e : Event) :
    (t.step bi scr painting e).Settled bi fb := by
  unfold Display.step
  split
  · exact h
  · next hhalted =>
    have hruns := Bool.eq_false_iff.mpr hhalted
    have hon := h.1 hruns
    cases e with
    | key s => exact hon.key hfb hruns s
    | mouse b => exact hon.mouseByte hfb hruns b
    | tick sec => exact hon.tick hfb hruns sec

theorem after_settled (hfb : bi.Holds fb) (events : List Event) :
    (after bi scr painting fb events).Settled bi fb := by
  refine List.foldlRecOn events _ ?_ fun t ht e _ => ht.step hfb e
  exact On.settled (Off.redraw ⟨rfl, rfl⟩) rfl

/-! ## The state behind the screen -/

theorem press_desk (t : Display) : (t.press bi scr painting).desk = handlePress scr t.desk := by
  unfold Display.press
  cases pressShown scr t.desk with
  | scene => rfl
  | brush => rfl
  | goodbye => rfl

theorem packet_desk (t : Display) (p : Packet) :
    (t.packet bi scr painting p).desk = handleMousePacket scr p t.desk := by
  unfold Display.packet handleMousePacket
  simp only
  split
  · rfl
  split
  · exact press_desk _
  · split
    · split <;> rfl
    · split <;> rfl

theorem mouseByte_desk (t : Display) (b : UInt8) :
    (t.mouseByte bi scr painting b).desk = Desktop.mouseByte scr b t.desk := by
  unfold Display.mouseByte Desktop.mouseByte
  split
  · rfl
  · by_cases hlen : (t.desk.mpkt ++ [b]).length ≥ (if scr.packetSize = 4 then 4 else 3)
    · rw [if_pos hlen, if_pos hlen]
      exact packet_desk _ _
    · rw [if_neg hlen, if_neg hlen]

theorem key_desk (t : Display) (s : UInt8) : (t.key bi painting s).desk = keyScancode s t.desk := by
  unfold Display.key
  cases keyScene s t.desk with
  | some d => rfl
  | none => rfl

theorem tick_desk (t : Display) (sec : ℕ) :
    (t.tick bi painting sec).desk = { t.desk with lastSecond := sec } := by
  unfold Display.tick
  split
  · rfl
  · next hsame => rw [not_not.mp hsame]

theorem step_desk (t : Display) (e : Event) : (t.step bi scr painting e).desk = Desktop.step scr t.desk e := by
  unfold Display.step Desktop.step
  split
  · rfl
  · cases e with
    | key s => exact key_desk t s
    | mouse b => exact mouseByte_desk t b
    | tick sec => exact tick_desk t sec

theorem after_desk (fb : Framebuffer) (events : List Event) :
    (after bi scr painting fb events).desk = Desktop.after scr events :=
  (List.foldl_hom Display.desk fun t e => (step_desk t e).symm).symm

end Display

/-- **The cursor leaves no trace.** -/
theorem cursor_over_picture (hfb : bi.Holds fb) (events : List Event) :
    let t := Display.after bi scr painting fb events
    let d := after scr events
    (d.halted = false → t.screen.fb = cursorDraw bi d.mouseX d.mouseY (drawAll bi fb t.drawn)) ∧
    (d.halted = true → bi.Described → t.screen.fb = drawAll bi fb t.drawn) := by
  intro t d
  have hdesk : t.desk = d := Display.after_desk fb events
  have hsettled : t.Settled bi fb := Display.after_settled hfb events
  obtain ⟨hon, hoff⟩ := hsettled
  rw [hdesk] at hon hoff
  refine ⟨fun hruns => ?_, hoff⟩
  have h := hon hruns
  rw [h.covered.fb_eq, h.atX, h.atY, hdesk]
  rfl

end

/-- A packet moves the cursor over a black screen. -/
theorem cursor_over_picture_moved :
    let bi : BootInfo := ⟨0x1000, 1024, 768, 1024, 0⟩
    let black : Framebuffer := fun _ => 0
    (Display.after bi ⟨1024, 768, 3⟩ (fun _ => []) black [.mouse 8, .mouse 5, .mouse 250]).screen.fb =
      cursorDraw bi 705 426 black := by
  intro bi black
  have hblack : bi.Holds black := fun _ => rfl
  obtain ⟨hrun, -⟩ := @cursor_over_picture bi ⟨1024, 768, 3⟩ (fun _ => []) black hblack
    [.mouse 8, .mouse 5, .mouse 250]
  have hruns : (after ⟨1024, 768, 3⟩ [.mouse 8, .mouse 5, .mouse 250]).halted = false := by decide +kernel
  have hx : (after ⟨1024, 768, 3⟩ [.mouse 8, .mouse 5, .mouse 250]).mouseX = 705 := by decide +kernel
  have hy : (after ⟨1024, 768, 3⟩ [.mouse 8, .mouse 5, .mouse 250]).mouseY = 426 := by decide +kernel
  have hdrawn : (Display.after bi ⟨1024, 768, 3⟩ (fun _ => []) black
      [.mouse 8, .mouse 5, .mouse 250]).drawn = [] := by decide +kernel
  rw [hrun hruns, hx, hy, hdrawn]
  rfl

end Orion.Desktop
