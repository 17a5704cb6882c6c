import Mathlib.Logic.Function.Basic
import Orion.Lib.Text

/-!
# The desktop (`kernel/desktop.c`)

Seven applications with a window each, a taskbar, a start menu and icons; bytes of the keyboard and
of the mouse come in one by one.  What the handlers pass on to other modules, to the terminal's lines
or to the canvas is recorded in `calls`.  The pixels are left out.  An `int` that is -1 or an
application is an `Option`.
-/

namespace Orion.Desktop

/-! ## State -/

inductive App where
  | terminal
  | files
  | notes
  | paint
  | browser
  | network
  | about
  deriving Repr, DecidableEq

/-- The applications in the order of their numbers. -/
def App.all : List App := [.terminal, .files, .notes, .paint, .browser, .network, .about]

/-- The number of an application. -/
def App.index : App → ℤ
  | .terminal => 0
  | .files => 1
  | .notes => 2
  | .paint => 3
  | .browser => 4
  | .network => 5
  | .about => 6

structure Window where
  x : ℤ
  y : ℤ
  w : ℤ
  h : ℤ
  opened : Bool
  minimized : Bool
  z : ℤ
  deriving Repr, DecidableEq

/-- The window is drawn. -/
def Window.visible (w : Window) : Bool := w.opened && ! w.minimized

/-- What a handler passes on. -/
inductive Call where
  | velaBack
  | velaForward
  | velaReload
  | velaGo
  | velaActivateLink (x y : ℤ)
  | velaScrollBy (n : ℤ)
  | velaInputChar (c : UInt8)
  | velaBackspace
  | netPingGateway (ms : ℕ)
  | paintClear
  | paintAt (x y : ℤ)
  | paintLine (x0 y0 x1 y1 : ℤ)
  | command (cmd : List UInt8)
  deriving Repr, DecidableEq

/-- A packet that was handled: the left button before and in it, and whether `handle_press` was
called. -/
structure Handled where
  wasDown : Bool
  isDown : Bool
  dispatched : Bool
  deriving Repr, DecidableEq

structure State where
  wins : App → Window
  ztop : ℤ
  activeApp : Option App
  startOpen : Bool
  dragging : Option App
  dragDx : ℤ
  dragDy : ℤ
  mouseX : ℤ
  mouseY : ℤ
  mouseLeft : Bool
  mousePrevLeft : Bool
  mpkt : List UInt8
  shiftDown : Bool
  lastSecond : ℕ
  termCmd : List UInt8
  notes : List UInt8
  halted : Bool
  calls : List Call
  handled : List Handled

/-- What the platform says: the framebuffer and the packets of the mouse. -/
structure Platform where
  width : ℕ
  height : ℕ
  packetSize : ℕ
  deriving Repr, DecidableEq

def taskbarH : ℤ := 54

def titleH : ℤ := 42

def termCap : ℕ := 64

def noteCap : ℕ := 1536

def inside (x y rx ry rw rh : ℤ) : Bool := x ≥ rx && y ≥ ry && x < rx + rw && y < ry + rh

/-- `desktop_init` -/
def init : State where
  wins := fun
    | .terminal => ⟨280, 130, 720, 480, true, false, 11⟩
    | .files => ⟨230, 115, 700, 440, false, false, 2⟩
    | .notes => ⟨330, 125, 610, 480, false, false, 3⟩
    | .paint => ⟨250, 90, 760, 560, false, false, 4⟩
    | .browser => ⟨220, 85, 820, 590, false, false, 5⟩
    | .network => ⟨345, 135, 620, 430, false, false, 6⟩
    | .about => ⟨380, 165, 540, 380, false, false, 7⟩
  ztop := 11
  activeApp := some .terminal
  startOpen := false
  dragging := none
  dragDx := 0
  dragDy := 0
  mouseX := 700
  mouseY := 420
  mouseLeft := false
  mousePrevLeft := false
  mpkt := []
  shiftDown := false
  lastSecond := 2 ^ 64 - 1
  termCmd := []
  notes := ascii ("Welcome to UN_Orion Notes.\n\nUN_Vela is now powered by the native Aster Engine.")
  halted := false
  calls := []
  handled := []

namespace State

variable (d : State)

def setWin (app : App) (w : Window) : State := { d with wins := Function.update d.wins app w }

def call (c : Call) : State := { d with calls := d.calls ++ [c] }

/-- The cursor is in a rectangle. -/
def cursorIn (rx ry rw rh : ℤ) : Bool := inside d.mouseX d.mouseY rx ry rw rh

/-! ## Focus -/

def focusApp (app : App) : State :=
  { d.setWin app { d.wins app with opened := true, minimized := false, z := d.ztop + 1 } with
    ztop := d.ztop + 1
    activeApp := some app
    startOpen := false }

/-- The loop of `top_window_at`, with `best` and `bz`. -/
def topFrom (x y : ℤ) : List App → Option App × ℤ → Option App
  | [], r => r.1
  | app :: apps, r =>
    let w := d.wins app
    if w.opened && ! w.minimized && inside x y w.x w.y w.w w.h && w.z > r.2 then
      topFrom x y apps (some app, w.z)
    else topFrom x y apps r

def topWindowAt (x y : ℤ) : Option App := d.topFrom x y App.all (none, -1)

/-! ## Pressing -/

/-- A press in the content of the browser. -/
def pressBrowser (w : Window) : State :=
  let bx := w.x + 1
  let by' := w.y + titleH + 1
  let bw := w.w - 2
  let bh := w.h - titleH - 2
  if d.cursorIn (bx + 12) (by' + 10) 34 34 then d.call .velaBack
  else if d.cursorIn (bx + 52) (by' + 10) 34 34 then d.call .velaForward
  else if d.cursorIn (bx + 92) (by' + 10) 42 34 then d.call .velaReload
  else if d.cursorIn (bx + bw - 84) (by' + 10) 70 34 then d.call .velaGo
  else if d.cursorIn (bx + 18) (by' + 108) (bw - 36) (bh - 124) then
    d.call (.velaActivateLink (d.mouseX - (bx + 18)) (d.mouseY - (by' + 108)))
  else d

/-- A press in the content of a window. -/
def pressContent (app : App) (w : Window) : State :=
  match app with
  | .paint =>
    if d.cursorIn (w.x + 1 + 96) (w.y + titleH + 1 + 8) 60 30 then d.call .paintClear
    else d.call (.paintAt d.mouseX d.mouseY)
  | .browser => d.pressBrowser w
  | .network =>
    if d.cursorIn (w.x + 1 + 24) (w.y + titleH + 1 + 248) 170 36 then d.call (.netPingGateway 1800)
    else d
  | _ => d

/-- A press in a window: it comes to the top, and is closed, dragged or used. -/
def pressWindow (app : App) : State :=
  let w := d.wins app
  let d := { d.setWin app { w with z := d.ztop + 1 } with ztop := d.ztop + 1, activeApp := some app }
  if d.cursorIn (w.x + w.w - 40) (w.y + 5) 34 31 then
    { d.setWin app { d.wins app with opened := false } with activeApp := none }
  else if d.cursorIn w.x w.y w.w titleH then
    { d with dragging := some app, dragDx := d.mouseX - w.x, dragDy := d.mouseY - w.y }
  else d.pressContent app w

end State

section

variable (scr : Platform) (d : State)

/-- The top of the taskbar. -/
def Platform.taskbarY : ℤ := scr.height - taskbarH

/-- The cursor is on the start button. -/
def onStartButton : Bool := d.cursorIn 14 (scr.taskbarY + 9) 38 36

/-- The entry of the start menu under the cursor. -/
def menuEntryAt : Option App :=
  App.all.find? fun app => d.cursorIn (14 + 10) (scr.taskbarY - 438 + 68 + app.index * 43) 260 36

def onShutDown : Bool := d.cursorIn (14 + 10) (scr.taskbarY - 438 + 382) 260 36

/-- The button of the taskbar under the cursor. -/
def taskButtonAt : Option App :=
  App.all.find? fun app => d.cursorIn (70 + app.index * 48) (scr.taskbarY + 8) 40 38

/-- The applications with an icon, from top to bottom. -/
def iconApps : List (ℕ × App) :=
  [(0, .terminal), (1, .files), (2, .notes), (3, .paint), (4, .browser), (5, .network)]

/-- The icon under the cursor. -/
def iconAt : Option App :=
  (iconApps.find? fun r => d.cursorIn 20 (36 + (r.1 : ℤ) * 91) 88 80).map (·.2)

/-- A press while the menu is open. -/
def pressMenu : State :=
  match menuEntryAt scr d with
  | some app => d.focusApp app
  | none => if onShutDown scr d then { d with halted := true } else { d with startOpen := false }

/-- A press on a button of the taskbar. -/
def pressTaskButton (app : App) : State :=
  if (d.wins app).opened && d.activeApp = some app && ! (d.wins app).minimized then
    { d.setWin app { d.wins app with minimized := true } with activeApp := none }
  else d.focusApp app

def handlePress : State :=
  if onStartButton scr d then { d with startOpen := ! d.startOpen }
  else if d.startOpen then pressMenu scr d
  else
    match taskButtonAt scr d with
    | some app => pressTaskButton d app
    | none =>
      match iconAt d with
      | some app => d.focusApp app
      | none =>
        match d.topWindowAt d.mouseX d.mouseY with
        | some app => d.pressWindow app
        | none => { d with activeApp := none }

end

/-! ## The mouse -/

def int8 (b : UInt8) : ℤ := if b.toNat < 128 then b.toNat else b.toNat - 256

/-- The bytes of a packet; the last one is there only if packets have four. -/
structure Packet where
  b0 : UInt8
  b1 : UInt8
  b2 : UInt8
  b3 : UInt8
  deriving Repr, DecidableEq

def Packet.down (p : Packet) : Bool := p.b0 &&& 1 ≠ 0

def Packet.wheel (p : Packet) : ℤ :=
  if p.b3 &&& 8 ≠ 0 then ((p.b3 &&& 15).toNat : ℤ) - 16 else (p.b3 &&& 15).toNat

section

variable (scr : Platform)

/-- What counts as wheel movement. -/
def wheelOf (p : Packet) : ℤ := if scr.packetSize = 4 then p.wheel else 0

def clampTo (v max : ℤ) : ℤ :=
  let v := if v < 0 then 0 else v
  if v > max then max else v

/-- The buttons and the cursor. -/
def moveCursor (p : Packet) (d : State) : State :=
  { d with
    mousePrevLeft := d.mouseLeft
    mouseLeft := p.down
    mouseX := clampTo (d.mouseX + int8 p.b1) (scr.width - 16)
    mouseY := clampTo (d.mouseY - int8 p.b2) (scr.height - 24) }

/-- The wheel moves over the page of the browser. -/
def scrolls (p : Packet) (d : State) : Bool :=
  let b := d.wins .browser
  let bx := b.x + 1
  let by' := b.y + titleH + 1
  let bw := b.w - 2
  let bh := b.h - titleH - 2
  wheelOf scr p ≠ 0 && b.opened && ! b.minimized && d.cursorIn (bx + 18) (by' + 108) (bw - 36) (bh - 124)

/-- The place of a window that is dragged to the cursor. -/
def dragTo (d : State) (w : Window) : Window :=
  let x := d.mouseX - d.dragDx
  let y := d.mouseY - d.dragDy
  let x := if x < 0 then 0 else x
  let y := if y < 0 then 0 else y
  let x := if x + w.w > scr.width then scr.width - w.w else x
  let y := if y + w.h > scr.height - taskbarH then scr.height - taskbarH - w.h else y
  { w with x := x, y := y }

/-- The window that is dragged follows the cursor. -/
def dragWindow (d : State) : State :=
  match d.dragging with
  | some app => if d.mouseLeft then d.setWin app (dragTo scr d (d.wins app)) else d
  | none => d

def endDrag (d : State) : State :=
  if d.mousePrevLeft && ! d.mouseLeft then { d with dragging := none } else d

def State.record (d : State) (dispatched : Bool) : State :=
  { d with handled := d.handled ++ [⟨d.mousePrevLeft, d.mouseLeft, dispatched⟩] }

def handleMousePacket (p : Packet) (d : State) : State :=
  let oldX := d.mouseX
  let oldY := d.mouseY
  let d := moveCursor scr p d
  if scrolls scr p d then (d.call (.velaScrollBy (- wheelOf scr p * 48))).record false
  else
    let d := endDrag (dragWindow scr d)
    if ! d.mousePrevLeft && d.mouseLeft then handlePress scr (d.record true)
    else if d.mouseLeft && d.mousePrevLeft && d.activeApp = some .paint && d.dragging = none then
      (d.call (.paintLine oldX oldY d.mouseX d.mouseY)).record false
    else d.record false

/-- `desktop_mouse_byte`; a packet starts with a byte that has bit 3 set. -/
def mouseByte (b : UInt8) (d : State) : State :=
  if d.mpkt = [] ∧ b &&& 0x08 = 0 then d
  else
    let mpkt := d.mpkt ++ [b]
    if mpkt.length ≥ (if scr.packetSize = 4 then 4 else 3) then
      handleMousePacket scr ⟨mpkt.getD 0 0, mpkt.getD 1 0, mpkt.getD 2 0, mpkt.getD 3 0⟩
        { d with mpkt := [] }
    else { d with mpkt := mpkt }

end

/-! ## The keyboard -/

def normalMap : List (UInt8 × List UInt8) :=
  [(0x02, ascii "1234567890-="), (0x10, ascii "qwertyuiop[]"), (0x1e, ascii "asdfghjkl;'`"),
    (0x2b, ascii "\\zxcvbnm,./"), (0x39, ascii " ")]

def shiftMap : List (UInt8 × List UInt8) :=
  [(0x02, ascii "!@#$%^&*()_+"), (0x10, ascii "QWERTYUIOP\x7b\x7d"), (0x1e, ascii "ASDFGHJKL:\"~"),
    (0x2b, ascii "|ZXCVBNM<>?"), (0x39, ascii " ")]

/-- The character of a scan code. -/
def keyChar (map : List (UInt8 × List UInt8)) (s : UInt8) : Option UInt8 :=
  map.findSome? fun row => if row.1 ≤ s then row.2[s.toNat - row.1.toNat]? else none

/-- `terminal_exec`; the other commands only print. -/
def terminalExec (d : State) : State :=
  let d := d.call (.command d.termCmd)
  if d.termCmd = ascii "vela" ∨ d.termCmd = ascii "browser" then
    { d.focusApp .browser with termCmd := [] }
  else { d with termCmd := [] }

def keyAscii (c : UInt8) (d : State) : State :=
  match d.activeApp with
  | some .terminal => if d.termCmd.length < termCap - 1 then { d with termCmd := d.termCmd ++ [c] } else d
  | some .notes => if d.notes.length < noteCap - 1 then { d with notes := d.notes ++ [c] } else d
  | some .browser => d.call (.velaInputChar c)
  | _ => d

/-- Return. -/
def keyEnter (d : State) : State :=
  match d.activeApp with
  | some .terminal => terminalExec d
  | some .notes => if d.notes.length < noteCap - 1 then { d with notes := d.notes ++ [10] } else d
  | some .browser => d.call .velaGo
  | _ => d

def keyBackspace (d : State) : State :=
  match d.activeApp with
  | some .terminal => { d with termCmd := d.termCmd.dropLast }
  | some .notes => { d with notes := d.notes.dropLast }
  | some .browser => d.call .velaBackspace
  | _ => d

def keyScancode (s : UInt8) (d : State) : State :=
  if s = 0x2a ∨ s = 0x36 then { d with shiftDown := true }
  else if s = 0xaa ∨ s = 0xb6 then { d with shiftDown := false }
  else if s &&& 0x80 ≠ 0 then d
  else if s = 0x01 then { d with startOpen := false }
  else if s = 0x1c then keyEnter d
  else if s = 0x0e then keyBackspace d
  else
    match keyChar (if d.shiftDown then shiftMap else normalMap) s with
    | some c => keyAscii c d
    | none => d

/-! ## Runs -/

inductive Event where
  | key (s : UInt8)
  | mouse (b : UInt8)
  | tick (sec : ℕ)
  deriving Repr, DecidableEq

/-- After the shutdown the processor is halted. -/
def step (scr : Platform) (d : State) (e : Event) : State :=
  if d.halted then d
  else
    match e with
    | .key s => keyScancode s d
    | .mouse b => mouseByte scr b d
    | .tick sec => { d with lastSecond := sec }

/-- The desktop after the events. -/
def after (scr : Platform) (events : List Event) : State := events.foldl (step scr) init

end Orion.Desktop
