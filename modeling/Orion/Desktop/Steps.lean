import Orion.Desktop.Model

/-!
# What a step does to the windows

A press does one of a few things to the windows (`handlePress_cases`, `pressWindow_cases`), a key at
most brings the browser to the front (`keyScancode_cases`).  What is only shown or passed on is left
open (`SameLayout`).
-/

namespace Orion.Desktop

/-- The same windows, drag, cursor and button. -/
structure SameLayout (d e : State) : Prop where
  wins : e.wins = d.wins
  ztop : e.ztop = d.ztop
  dragging : e.dragging = d.dragging
  dragDx : e.dragDx = d.dragDx
  dragDy : e.dragDy = d.dragDy
  mouseX : e.mouseX = d.mouseX
  mouseY : e.mouseY = d.mouseY
  mouseLeft : e.mouseLeft = d.mouseLeft
  mousePrevLeft : e.mousePrevLeft = d.mousePrevLeft
  handled : e.handled = d.handled

theorem SameLayout.refl (d : State) : SameLayout d d := ⟨rfl, rfl, rfl, rfl, rfl, rfl, rfl, rfl, rfl, rfl⟩

theorem State.call_layout (d : State) (c : Call) : SameLayout d (d.call c) :=
  ⟨rfl, rfl, rfl, rfl, rfl, rfl, rfl, rfl, rfl, rfl⟩

@[simp] theorem State.setWin_self (d : State) (app : App) (w : Window) :
    (d.setWin app w).wins app = w := Function.update_self ..

theorem State.setWin_of_ne (d : State) {app b : App} (w : Window) (h : b ≠ app) :
    (d.setWin app w).wins b = d.wins b := Function.update_of_ne h ..

/-! ## Points -/

theorem inside_iff {x y rx ry rw' rh : ℤ} :
    inside x y rx ry rw' rh = true ↔ rx ≤ x ∧ ry ≤ y ∧ x < rx + rw' ∧ y < ry + rh := by
  unfold inside
  simp only [ge_iff_le, Bool.and_eq_true, decide_eq_true_eq]
  tauto

theorem cursorIn_iff {d : State} {rx ry rw' rh : ℤ} : d.cursorIn rx ry rw' rh = true ↔
    rx ≤ d.mouseX ∧ ry ≤ d.mouseY ∧ d.mouseX < rx + rw' ∧ d.mouseY < ry + rh :=
  inside_iff

/-! ## Presses -/

theorem State.pressBrowser_layout (d : State) (w : Window) : SameLayout d (d.pressBrowser w) := by
  unfold State.pressBrowser
  simp only
  split_ifs
  · exact d.call_layout _
  · exact d.call_layout _
  · exact d.call_layout _
  · exact d.call_layout _
  · exact d.call_layout _
  · exact SameLayout.refl d

theorem State.pressContent_layout (d : State) (app : App) (w : Window) :
    SameLayout d (d.pressContent app w) := by
  unfold State.pressContent
  cases app with
  | paint =>
    simp only
    split <;> exact d.call_layout _
  | browser => exact d.pressBrowser_layout w
  | network =>
    simp only
    split
    · exact d.call_layout _
    · exact SameLayout.refl d
  | terminal => exact SameLayout.refl d
  | files => exact SameLayout.refl d
  | notes => exact SameLayout.refl d
  | about => exact SameLayout.refl d

/-- A window comes to the top. -/
def State.raise (d : State) (app : App) : State :=
  { d.setWin app { d.wins app with z := d.ztop + 1 } with ztop := d.ztop + 1, activeApp := some app }

/-- **What a press in a window does**: it is closed, or dragged from now on, or used. -/
theorem State.pressWindow_cases (d : State) (app : App) :
    d.pressWindow app = { (d.raise app).setWin app { (d.raise app).wins app with opened := false } with
        activeApp := none } ∨
      (d.cursorIn (d.wins app).x (d.wins app).y (d.wins app).w titleH = true ∧
        d.pressWindow app = { d.raise app with
          dragging := some app
          dragDx := d.mouseX - (d.wins app).x
          dragDy := d.mouseY - (d.wins app).y }) ∨
      SameLayout (d.raise app) (d.pressWindow app) := by
  unfold State.pressWindow
  simp only
  split
  · exact .inl rfl
  · split
    · rename_i htitle
      exact .inr (.inl ⟨htitle, rfl⟩)
    · exact .inr (.inr ((d.raise app).pressContent_layout app _))

section

variable (scr : Platform) (d : State)

theorem handlePress_cases :
    SameLayout d (handlePress scr d) ∨ (∃ app, handlePress scr d = d.focusApp app) ∨
      (∃ app, SameLayout (d.setWin app { d.wins app with minimized := true }) (handlePress scr d)) ∨
      ∃ app, d.topWindowAt d.mouseX d.mouseY = some app ∧ handlePress scr d = d.pressWindow app := by
  unfold handlePress
  split
  · exact .inl ⟨rfl, rfl, rfl, rfl, rfl, rfl, rfl, rfl, rfl, rfl⟩
  · split
    · unfold pressMenu
      cases menuEntryAt scr d with
      | some app => exact .inr (.inl ⟨app, rfl⟩)
      | none =>
        left
        simp only
        split <;> exact ⟨rfl, rfl, rfl, rfl, rfl, rfl, rfl, rfl, rfl, rfl⟩
    · cases taskButtonAt scr d with
      | some app =>
        simp only
        unfold pressTaskButton
        split
        · exact .inr (.inr (.inl ⟨app, ⟨rfl, rfl, rfl, rfl, rfl, rfl, rfl, rfl, rfl, rfl⟩⟩))
        · exact .inr (.inl ⟨app, rfl⟩)
      | none =>
        cases iconAt d with
        | some app => exact .inr (.inl ⟨app, rfl⟩)
        | none =>
          cases htop : d.topWindowAt d.mouseX d.mouseY with
          | some app => exact .inr (.inr (.inr ⟨app, rfl, rfl⟩))
          | none => exact .inl ⟨rfl, rfl, rfl, rfl, rfl, rfl, rfl, rfl, rfl, rfl⟩

end

/-! ## Packets -/

/-- What moving a window keeps. -/
theorem dragWindow_frame (scr : Platform) (d : State) :
    (dragWindow scr d).dragging = d.dragging ∧ (dragWindow scr d).mouseLeft = d.mouseLeft ∧
      (dragWindow scr d).mousePrevLeft = d.mousePrevLeft ∧ (dragWindow scr d).handled = d.handled ∧
      ∀ app, ((dragWindow scr d).wins app).visible = (d.wins app).visible := by
  cases hdrag : d.dragging with
  | none =>
    have hsame : dragWindow scr d = d := by simp only [dragWindow, hdrag]
    rw [hsame]
    exact ⟨hdrag, rfl, rfl, rfl, fun _ => rfl⟩
  | some b =>
    by_cases hleft : d.mouseLeft = true
    · have hmoved : dragWindow scr d = d.setWin b (dragTo scr d (d.wins b)) := by
        simp only [dragWindow, hdrag, if_pos hleft]
      rw [hmoved]
      refine ⟨hdrag, rfl, rfl, rfl, fun app => ?_⟩
      by_cases happ : app = b
      · rw [happ, State.setWin_self]
        rfl
      · rw [d.setWin_of_ne _ happ]
    · have hsame : dragWindow scr d = d := by simp only [dragWindow, hdrag, if_neg hleft]
      rw [hsame]
      exact ⟨hdrag, rfl, rfl, rfl, fun _ => rfl⟩

theorem endDrag_frame (d : State) :
    (endDrag d).mouseLeft = d.mouseLeft ∧ (endDrag d).mousePrevLeft = d.mousePrevLeft ∧
      (endDrag d).handled = d.handled := by
  unfold endDrag
  split <;> exact ⟨rfl, rfl, rfl⟩

/-! ## Keys -/

theorem keyAscii_layout (c : UInt8) (d : State) : SameLayout d (keyAscii c d) := by
  unfold keyAscii
  split
  · split <;> exact ⟨rfl, rfl, rfl, rfl, rfl, rfl, rfl, rfl, rfl, rfl⟩
  · split <;> exact ⟨rfl, rfl, rfl, rfl, rfl, rfl, rfl, rfl, rfl, rfl⟩
  · exact d.call_layout _
  · exact SameLayout.refl d

theorem keyBackspace_layout (d : State) : SameLayout d (keyBackspace d) := by
  unfold keyBackspace
  split
  · exact ⟨rfl, rfl, rfl, rfl, rfl, rfl, rfl, rfl, rfl, rfl⟩
  · exact ⟨rfl, rfl, rfl, rfl, rfl, rfl, rfl, rfl, rfl, rfl⟩
  · exact d.call_layout _
  · exact SameLayout.refl d

theorem keyEnter_cases (d : State) :
    SameLayout d (keyEnter d) ∨ SameLayout (d.focusApp .browser) (keyEnter d) := by
  unfold keyEnter
  split
  · unfold terminalExec
    simp only
    split
    · exact .inr ⟨rfl, rfl, rfl, rfl, rfl, rfl, rfl, rfl, rfl, rfl⟩
    · exact .inl ⟨rfl, rfl, rfl, rfl, rfl, rfl, rfl, rfl, rfl, rfl⟩
  · left
    split <;> exact ⟨rfl, rfl, rfl, rfl, rfl, rfl, rfl, rfl, rfl, rfl⟩
  · exact .inl (d.call_layout _)
  · exact .inl (SameLayout.refl d)

/-- A key changes no window, except that a command can bring the browser to the front. -/
theorem keyScancode_cases (s : UInt8) (d : State) :
    SameLayout d (keyScancode s d) ∨ SameLayout (d.focusApp .browser) (keyScancode s d) := by
  unfold keyScancode
  split
  · exact .inl ⟨rfl, rfl, rfl, rfl, rfl, rfl, rfl, rfl, rfl, rfl⟩
  split
  · exact .inl ⟨rfl, rfl, rfl, rfl, rfl, rfl, rfl, rfl, rfl, rfl⟩
  split
  · exact .inl (SameLayout.refl d)
  split
  · exact .inl ⟨rfl, rfl, rfl, rfl, rfl, rfl, rfl, rfl, rfl, rfl⟩
  split
  · exact keyEnter_cases d
  split
  · exact .inl (keyBackspace_layout d)
  cases keyChar (if d.shiftDown then shiftMap else normalMap) s with
  | some c => exact .inl (keyAscii_layout c d)
  | none => exact .inl (SameLayout.refl d)

/-! ## Events -/

section

variable (scr : Platform) (d : State)

/-- The packet that an event completes. -/
def packetAt : Event → Option Packet
  | .mouse b =>
    let mpkt := d.mpkt ++ [b]
    if d.halted ∨ d.mpkt = [] ∧ b &&& 0x08 = 0 then none
    else if mpkt.length ≥ (if scr.packetSize = 4 then 4 else 3) then
      some ⟨mpkt.getD 0 0, mpkt.getD 1 0, mpkt.getD 2 0, mpkt.getD 3 0⟩
    else none
  | _ => none

variable {scr d} {e : Event}

theorem step_packet {p : Packet} (h : packetAt scr d e = some p) :
    step scr d e = handleMousePacket scr p { d with mpkt := [] } := by
  cases e with
  | key s => simp [packetAt] at h
  | tick sec => simp [packetAt] at h
  | mouse b =>
    by_cases hskip : d.halted = true ∨ d.mpkt = [] ∧ b &&& 0x08 = 0
    · simp [packetAt, if_pos hskip] at h
    · obtain ⟨hhalt, hfirst⟩ := not_or.mp hskip
      simp only [packetAt, if_neg hskip] at h
      by_cases hlen : (d.mpkt ++ [b]).length ≥ (if scr.packetSize = 4 then 4 else 3)
      · rw [if_pos hlen] at h
        rw [← Option.some.inj h]
        simp only [step, mouseByte, if_neg hhalt, if_neg hfirst, if_pos hlen]
      · rw [if_neg hlen] at h
        simp at h

/-- Without a packet at most the browser comes to the front. -/
theorem step_quiet (h : packetAt scr d e = none) :
    SameLayout d (step scr d e) ∨ SameLayout (d.focusApp .browser) (step scr d e) := by
  by_cases hhalt : d.halted = true
  · simp only [step, if_pos hhalt]
    exact .inl (SameLayout.refl d)
  cases e with
  | key s =>
    simp only [step, if_neg hhalt]
    exact keyScancode_cases s d
  | tick sec =>
    simp only [step, if_neg hhalt]
    exact .inl ⟨rfl, rfl, rfl, rfl, rfl, rfl, rfl, rfl, rfl, rfl⟩
  | mouse b =>
    left
    by_cases hfirst : d.mpkt = [] ∧ b &&& 0x08 = 0
    · simp only [step, mouseByte, if_neg hhalt, if_pos hfirst]
      exact SameLayout.refl d
    · simp only [packetAt, if_neg (not_or.mpr ⟨hhalt, hfirst⟩)] at h
      by_cases hlen : (d.mpkt ++ [b]).length ≥ (if scr.packetSize = 4 then 4 else 3)
      · rw [if_pos hlen] at h
        simp at h
      · simp only [step, mouseByte, if_neg hhalt, if_neg hfirst, if_neg hlen]
        exact ⟨rfl, rfl, rfl, rfl, rfl, rfl, rfl, rfl, rfl, rfl⟩

end

theorem after_append (scr : Platform) (events : List Event) (e : Event) :
    after scr (events ++ [e]) = step scr (after scr events) e := by
  rw [after, List.foldl_append]
  rfl

end Orion.Desktop
