import Orion.Desktop.Display
import Orion.Desktop.Drag

/-!
# What is on the screen is what there is

A handler that changes something that is painted paints it.  Three do not: a press on the canvas brings its
window to the front and paints the brush alone, a command that opens the browser is taken from its line
behind the painting, and a packet that moves the cursor leaves the highlights where they were.
-/

namespace Orion.Desktop

open Orion.Graphics

/-! ## Views -/

/-- What was passed on, but for the strokes on the canvas, which are drawn at once. -/
def State.passed (d : State) : List Call :=
  d.calls.filter fun
    | .paintAt _ _ => false
    | .paintLine _ _ _ _ => false
    | _ => true

/-- Two states that are painted alike. -/
structure SameView (d e : State) : Prop where
  wins : e.wins = d.wins
  activeApp : e.activeApp = d.activeApp
  startOpen : e.startOpen = d.startOpen
  termCmd : e.termCmd = d.termCmd
  notes : e.notes = d.notes
  passed : e.passed = d.passed

/-- The line of a command that opens the browser. -/
def opensBrowser (cmd : List UInt8) : Prop := cmd = ascii "vela" ∨ cmd = ascii "browser"

/-- What is drawn highlighted while the cursor is at `(x, y)`: the close buttons of the windows that are
shown (`draw_window_frame`) and the entries of the open menu (`draw_start_menu`). -/
def State.highlighted (scr : Platform) (d : State) (x y : ℤ) : List App × List App :=
  (App.all.filter fun app => (d.wins app).visible &&
      inside x y ((d.wins app).x + (d.wins app).w - 40) ((d.wins app).y + 5) 34 31,
    if d.startOpen then
      App.all.filter fun app => inside x y (14 + 10) (scr.taskbarY - 438 + 68 + app.index * 43) 260 36
    else [])

/-- What is left of the difference between the desktop and the scene that was painted last, the place of
the cursor apart. -/
structure UpToDate (d scene : State) : Prop where
  windows : ∀ app, app ≠ .paint → scene.wins app = d.wins app
  startOpen : scene.startOpen = d.startOpen
  notes : scene.notes = d.notes
  passed : scene.passed = d.passed
  canvas : scene.wins .paint = d.wins .paint ∧ scene.activeApp = d.activeApp ∨
    d.activeApp = some .paint ∧ scene.wins .paint = { d.wins .paint with z := (scene.wins .paint).z }
  command : scene.termCmd = d.termCmd ∨ opensBrowser scene.termCmd ∧ d.termCmd = []

theorem SameView.refl (d : State) : SameView d d := ⟨rfl, rfl, rfl, rfl, rfl, rfl⟩

theorem UpToDate.refl (d : State) : UpToDate d d :=
  ⟨fun _ _ => rfl, rfl, rfl, rfl, .inl ⟨rfl, rfl⟩, .inl rfl⟩

theorem UpToDate.view {d e scene : State} (h : UpToDate d scene) (hview : SameView d e) :
    UpToDate e scene where
  windows := by
    intro app happ
    rw [hview.wins, h.windows app happ]
  startOpen := h.startOpen.trans hview.startOpen.symm
  notes := h.notes.trans hview.notes.symm
  passed := h.passed.trans hview.passed.symm
  canvas := by
    rw [hview.wins, hview.activeApp]
    exact h.canvas
  command := by
    rw [hview.termCmd]
    exact h.command

/-- The highlights depend on the order of the windows no more than on what is written in them. -/
theorem UpToDate.highlighted {d scene : State} (h : UpToDate d scene) (scr : Platform) (x y : ℤ) :
    scene.highlighted scr x y = d.highlighted scr x y := by
  have hwins : ∀ app, (scene.wins app).visible = (d.wins app).visible ∧
      (scene.wins app).x = (d.wins app).x ∧ (scene.wins app).y = (d.wins app).y ∧
        (scene.wins app).w = (d.wins app).w := by
    intro app
    by_cases happ : app = .paint
    · subst happ
      obtain ⟨hpaint, -⟩ | ⟨-, hpaint⟩ := h.canvas
      · rw [hpaint]
        exact ⟨rfl, rfl, rfl, rfl⟩
      · rw [hpaint]
        exact ⟨rfl, rfl, rfl, rfl⟩
    · rw [h.windows app happ]
      exact ⟨rfl, rfl, rfl, rfl⟩
  unfold State.highlighted
  rw [h.startOpen]
  congr 1
  refine List.filter_congr fun app _ => ?_
  obtain ⟨hvis, hx, hy, hw⟩ := hwins app
  rw [hvis, hx, hy, hw]

/-! ## The exceptions -/

/-- A press that draws with the brush alone. -/
theorem handlePress_brush {scr : Platform} {d : State} (h : pressShown scr d = .brush) :
    handlePress scr d = (d.raise .paint).call (.paintAt d.mouseX d.mouseY) := by
  unfold pressShown at h
  unfold handlePress
  split at h
  · cases h
  · next hstart =>
    rw [if_neg hstart]
    split at h
    · split at h
      · cases h
      · split at h <;> cases h
    · next hmenu =>
      rw [if_neg hmenu]
      cases htask : taskButtonAt scr d with
      | some app => simp only [htask, reduceCtorEq] at h
      | none =>
        cases hicon : iconAt d with
        | some app => simp only [htask, hicon, reduceCtorEq] at h
        | none =>
          simp only [htask, hicon] at h
          split at h
          · next htop =>
            split at h
            · cases h
            split at h
            · cases h
            split at h
            · cases h
            · next hclose htitle hclear =>
              rw [htop]
              show d.pressWindow .paint = _
              rw [State.pressWindow]
              simp only
              rw [if_neg (by exact hclose), if_neg (by exact htitle), State.pressContent]
              simp only
              rw [if_neg (by exact hclear)]
              rfl
          · cases h

theorem UpToDate.brush {d scene : State} (h : UpToDate d scene) (x y : ℤ) :
    UpToDate ((d.raise .paint).call (.paintAt x y)) scene where
  windows := by
    intro app happ
    rw [h.windows app happ]
    exact (d.setWin_of_ne _ happ).symm
  startOpen := h.startOpen
  notes := h.notes
  passed := by
    rw [h.passed]
    show d.passed = (d.calls ++ [Call.paintAt x y]).filter _
    rw [List.filter_append]
    exact (List.append_nil _).symm
  canvas := by
    refine .inr ⟨rfl, ?_⟩
    have hsame : scene.wins .paint = { d.wins .paint with z := (scene.wins .paint).z } := by
      obtain ⟨hpaint, -⟩ | ⟨-, hpaint⟩ := h.canvas
      · rw [hpaint]
      · exact hpaint
    have hraised : ((d.raise .paint).call (.paintAt x y)).wins .paint = { d.wins .paint with z := d.ztop + 1 } := by
      simp only [State.call, State.raise, State.setWin_self]
    rw [hraised]
    exact hsame
  command := h.command

/-! ## Keys -/

theorem keyEnter_view {d : State} (hterm : d.activeApp ≠ some .terminal)
    (hbrowser : d.activeApp ≠ some .browser)
    (hnotes : d.activeApp = some .notes → ¬ d.notes.length < noteCap - 1) : SameView d (keyEnter d) := by
  unfold keyEnter
  split
  · next happ => exact absurd happ hterm
  · next happ =>
    rw [if_neg (hnotes happ)]
    exact SameView.refl d
  · next happ => exact absurd happ hbrowser
  · exact SameView.refl d

theorem keyBackspace_view {d : State} (hterm : d.activeApp = some .terminal → d.termCmd = [])
    (hbrowser : d.activeApp ≠ some .browser) (hnotes : d.activeApp = some .notes → d.notes = []) :
    SameView d (keyBackspace d) := by
  unfold keyBackspace
  split
  · next happ => exact ⟨rfl, rfl, rfl, by simp only [hterm happ, List.dropLast_nil], rfl, rfl⟩
  · next happ => exact ⟨rfl, rfl, rfl, rfl, by simp only [hnotes happ, List.dropLast_nil], rfl⟩
  · next happ => exact absurd happ hbrowser
  · exact SameView.refl d

theorem keyAscii_view {d : State} (c : UInt8)
    (hterm : d.activeApp = some .terminal → ¬ d.termCmd.length < termCap - 1)
    (hbrowser : d.activeApp ≠ some .browser)
    (hnotes : d.activeApp = some .notes → ¬ d.notes.length < noteCap - 1) : SameView d (keyAscii c d) := by
  unfold keyAscii
  split
  · next happ =>
    rw [if_neg (hterm happ)]
    exact SameView.refl d
  · next happ =>
    rw [if_neg (hnotes happ)]
    exact SameView.refl d
  · next happ => exact absurd happ hbrowser
  · exact SameView.refl d

/-- Shift, and what is released. -/
theorem keyScancode_skipped {s : UInt8} (d : State)
    (h : s = 0x2a ∨ s = 0x36 ∨ s = 0xaa ∨ s = 0xb6 ∨ s &&& 0x80 ≠ 0) : SameView d (keyScancode s d) := by
  unfold keyScancode
  split
  · exact ⟨rfl, rfl, rfl, rfl, rfl, rfl⟩
  split
  · exact ⟨rfl, rfl, rfl, rfl, rfl, rfl⟩
  · next hdown hup =>
    have hbreak : s &&& 0x80 ≠ 0 := by tauto
    rw [if_pos hbreak]
    exact SameView.refl d

/-- A key that paints nothing changes nothing that is painted. -/
theorem keyScene_none {s : UInt8} {d : State} (h : keyScene s d = none) : SameView d (keyScancode s d) := by
  unfold keyScene at h
  simp only at h
  split at h
  · next hskip => exact keyScancode_skipped d hskip
  next hskip =>
  simp only [not_or] at hskip
  obtain ⟨h1, h2, h3, h4, h5⟩ := hskip
  unfold keyScancode
  rw [if_neg (not_or.mpr ⟨h1, h2⟩), if_neg (not_or.mpr ⟨h3, h4⟩), if_neg h5]
  split at h
  · next hesc =>
    rw [if_pos hesc]
    split at h
    · cases h
    · next hclosed => exact ⟨rfl, rfl, (Bool.eq_false_iff.mpr hclosed).symm, rfl, rfl, rfl⟩
  next hesc =>
  rw [if_neg hesc]
  split at h
  · next hret =>
    rw [if_pos hret]
    refine keyEnter_view (fun happ => ?_) (fun happ => ?_) (fun happ hroom => ?_)
    · simp only [happ] at h
      split at h <;> cases h
    · simp only [happ, reduceCtorEq] at h
    · simp only [happ, if_pos hroom, reduceCtorEq] at h
  next hret =>
  rw [if_neg hret]
  split at h
  · next hback =>
    rw [if_pos hback]
    refine keyBackspace_view (fun happ => ?_) (fun happ => ?_) (fun happ => ?_)
    · by_contra hline
      simp only [happ, if_pos hline, reduceCtorEq] at h
    · simp only [happ, reduceCtorEq] at h
    · by_contra hline
      simp only [happ, if_pos hline, reduceCtorEq] at h
  next hback =>
  rw [if_neg hback]
  cases hchar : keyChar (if d.shiftDown then shiftMap else normalMap) s with
  | none => exact SameView.refl d
  | some c =>
    refine keyAscii_view c (fun happ hroom => ?_) (fun happ => ?_) (fun happ hroom => ?_)
    · simp only [hchar, happ, if_pos hroom, reduceCtorEq] at h
    · simp only [hchar, happ, reduceCtorEq] at h
    · simp only [hchar, happ, if_pos hroom, reduceCtorEq] at h

/-! ## Every run -/

section

variable {bi : BootInfo} {scr : Platform} {painting : ℕ → List Draw}

variable {t : Display}

theorem UpToDate.press (h : UpToDate t.desk t.scene) (hhalted : t.desk.halted = false) :
    (t.press bi scr painting).desk.halted = true ∨
      UpToDate (t.press bi scr painting).desk (t.press bi scr painting).scene := by
  unfold Display.press
  cases hshown : pressShown scr t.desk with
  | scene => exact .inr (UpToDate.refl _)
  | brush =>
    right
    show UpToDate (handlePress scr t.desk) t.scene
    rw [handlePress_brush hshown]
    exact h.brush _ _
  | goodbye => exact .inl ((handlePress_halted hhalted).mpr hshown)

/-- No window is moved. -/
theorem dragWindow_idle {d : State} (h : (d.dragging.isSome && d.mouseLeft) = false) : dragWindow scr d = d := by
  unfold dragWindow
  split
  · next app happ =>
    rw [happ] at h
    split
    · next hleft => exact absurd h (by rw [hleft]; exact Bool.noConfusion)
    · rfl
  · rfl

theorem endDrag_view (d : State) : SameView d (endDrag d) := by
  unfold endDrag
  split
  · exact ⟨rfl, rfl, rfl, rfl, rfl, rfl⟩
  · exact SameView.refl d

theorem record_view {d e : State} (h : SameView d e) (b : Bool) : SameView d (e.record b) :=
  ⟨h.wins, h.activeApp, h.startOpen, h.termCmd, h.notes, h.passed⟩

/-- A stroke is no change of the view. -/
theorem paintLine_view {d e : State} (h : SameView d e) (x0 y0 x1 y1 : ℤ) :
    SameView d (e.call (.paintLine x0 y0 x1 y1)) where
  wins := h.wins
  activeApp := h.activeApp
  startOpen := h.startOpen
  termCmd := h.termCmd
  notes := h.notes
  passed := by
    rw [← h.passed]
    show (e.calls ++ [Call.paintLine x0 y0 x1 y1]).filter _ = e.passed
    rw [List.filter_append]
    exact List.append_nil _

/-- A packet, if a drag ends with the button. -/
theorem UpToDate.packet (h : UpToDate t.desk t.scene) (hhalted : t.desk.halted = false)
    (hdrag : t.desk.dragging ≠ none → t.desk.mouseLeft = true) (p : Packet) :
    (t.packet bi scr painting p).desk.halted = true ∨
      UpToDate (t.packet bi scr painting p).desk (t.packet bi scr painting p).scene := by
  have hmoved : SameView t.desk (moveCursor scr p t.desk) := ⟨rfl, rfl, rfl, rfl, rfl, rfl⟩
  -- without a drag the packet changes no window before the press
  have hidle : ((moveCursor scr p t.desk).dragging.isSome && (moveCursor scr p t.desk).mouseLeft) = false →
      SameView t.desk (endDrag (dragWindow scr (moveCursor scr p t.desk))) := by
    intro hnone
    rw [dragWindow_idle hnone]
    have hend := endDrag_view (moveCursor scr p t.desk)
    exact ⟨hend.wins, hend.activeApp, hend.startOpen, hend.termCmd, hend.notes, hend.passed⟩
  have hruns : (endDrag (dragWindow scr (moveCursor scr p t.desk))).halted = false := by
    rw [endDrag_halted, dragWindow_halted, moveCursor_halted, hhalted]
  unfold Display.packet
  simp only
  split
  · exact .inr (UpToDate.refl _)
  split
  · next hpress =>
    have hup : t.desk.mouseLeft = false := by
      have hbuttons := Bool.and_eq_true_iff.mp hpress
      rw [(endDrag_frame _).2.1, (dragWindow_frame scr _).2.2.1] at hbuttons
      exact (Bool.not_eq_true' _).mp hbuttons.1
    have hnone : t.desk.dragging = none := by
      by_contra hsome
      exact absurd (hup.symm.trans (hdrag hsome)) Bool.noConfusion
    have hview := hidle (by
      show (t.desk.dragging.isSome && _) = false
      rw [hnone]
      rfl)
    exact UpToDate.press (h.view (record_view hview true)) hruns
  · right
    cases hredraw : (moveCursor scr p t.desk).dragging.isSome && (moveCursor scr p t.desk).mouseLeft with
    | true => exact UpToDate.refl _
    | false =>
      have hview := hidle hredraw
      simp only [Bool.false_eq_true, if_false]
      split
      · exact h.view (record_view (paintLine_view hview _ _ _ _) false)
      · exact h.view (record_view hview false)

theorem UpToDate.mouseByte (h : UpToDate t.desk t.scene) (hhalted : t.desk.halted = false)
    (hdrag : t.desk.dragging ≠ none → t.desk.mouseLeft = true) (b : UInt8) :
    (t.mouseByte bi scr painting b).desk.halted = true ∨
      UpToDate (t.mouseByte bi scr painting b).desk (t.mouseByte bi scr painting b).scene := by
  unfold Display.mouseByte
  split
  · exact .inr h
  · by_cases hlen : (t.desk.mpkt ++ [b]).length ≥ (if scr.packetSize = 4 then 4 else 3)
    · rw [if_pos hlen]
      exact UpToDate.packet (t := { t with desk := { t.desk with mpkt := [] } })
        (h.view ⟨rfl, rfl, rfl, rfl, rfl, rfl⟩) hhalted hdrag _
    · rw [if_neg hlen]
      exact .inr (h.view ⟨rfl, rfl, rfl, rfl, rfl, rfl⟩)

theorem UpToDate.key (h : UpToDate t.desk t.scene) (s : UInt8) :
    UpToDate (t.key bi painting s).desk (t.key bi painting s).scene := by
  unfold Display.key
  cases hscene : keyScene s t.desk with
  | none => exact h.view (keyScene_none hscene)
  | some e =>
    show UpToDate (keyScancode s t.desk) e
    obtain rfl | ⟨hcmd, hkey, rfl⟩ := keyScene_some hscene
    · exact UpToDate.refl _
    · refine ⟨fun _ _ => rfl, rfl, rfl, rfl, .inl ⟨rfl, rfl⟩, .inr ⟨hcmd, ?_⟩⟩
      rw [hkey]

theorem UpToDate.step (h : t.desk.halted = true ∨ UpToDate t.desk t.scene)
    (hdrag : t.desk.dragging ≠ none → t.desk.mouseLeft = true) (e : Event) :
    (t.step bi scr painting e).desk.halted = true ∨
      UpToDate (t.step bi scr painting e).desk (t.step bi scr painting e).scene := by
  unfold Display.step
  split
  · exact h
  · next hruns =>
    have hhalted := Bool.eq_false_iff.mpr hruns
    have hold := h.resolve_left hruns
    cases e with
    | key s => exact .inr (hold.key s)
    | mouse b => exact hold.mouseByte hhalted hdrag b
    | tick sec =>
      right
      show UpToDate (t.tick bi painting sec).desk (t.tick bi painting sec).scene
      rw [Display.tick_desk]
      have hscene : (t.tick bi painting sec).scene = t.scene := by
        unfold Display.tick
        split <;> rfl
      rw [hscene]
      exact hold.view ⟨rfl, rfl, rfl, rfl, rfl, rfl⟩

end

/-- No packet of the run that scrolls the page lets the button go down or ends a drag. -/
def Calm (scr : Platform) (events : List Event) : Prop :=
  ∀ pre e p, pre ++ [e] <+: events → packetAt scr (after scr pre) e = some p → ¬ Swallowed scr (after scr pre) p

/-- **What is painted is up to date** in a calm run, but for the canvas, which may have come to the front
and be active since, for a command, and for the highlights: they are those for the place at which the
cursor was when the scene was painted. -/
theorem scene_up_to_date (bi : BootInfo) (scr : Platform) (painting : ℕ → List Draw) (fb : Framebuffer)
    (events : List Event) (hcalm : Calm scr events) :
    let d := after scr events
    let scene := (Display.after bi scr painting fb events).scene
    d.halted = true ∨ UpToDate d scene ∧
      scene.highlighted scr scene.mouseX scene.mouseY = d.highlighted scr scene.mouseX scene.mouseY := by
  intro d scene
  have hrun : ∀ pre, pre <+: events → DragOk (after scr pre) ∧ ((after scr pre).halted = true ∨
      UpToDate (after scr pre) (Display.after bi scr painting fb pre).scene) := by
    intro pre
    induction pre using List.reverseRecOn with
    | nil => exact fun _ => ⟨init_dragOk, .inr (UpToDate.refl init)⟩
    | append_singleton pre e ih =>
      intro hpre
      obtain ⟨hok, hold⟩ := ih ((List.prefix_append pre [e]).trans hpre)
      have hdesk : (Display.after bi scr painting fb pre).desk = after scr pre := Display.after_desk fb pre
      have hnext : Display.after bi scr painting fb (pre ++ [e]) =
          (Display.after bi scr painting fb pre).step bi scr painting e := List.foldl_append
      refine ⟨?_, ?_⟩
      · rw [after_append]
        exact hok.step fun p hpacket => hcalm pre e p hpre hpacket
      · rw [after_append, hnext, ← hdesk, ← Display.step_desk]
        refine UpToDate.step ?_ (fun hsome => ?_) e
        · rw [hdesk]
          exact hold
        · rw [hdesk] at hsome ⊢
          obtain ⟨app, happ⟩ := Option.ne_none_iff_exists'.mp hsome
          exact (hok.drag app happ).1
  refine (hrun events List.prefix_rfl).2.imp id fun h => ⟨h, h.highlighted scr _ _⟩

/-- A mouse without a wheel. -/
theorem calm_of_packetSize {scr : Platform} (h : scr.packetSize ≠ 4) (events : List Event) : Calm scr events := by
  rintro pre e p - - ⟨hscroll, -⟩
  have hwheel : wheelOf scr p = 0 := if_neg h
  simp only [scrolls, hwheel, ne_eq, not_true_eq_false, decide_false, Bool.false_and,
    Bool.false_eq_true] at hscroll

/-- The cursor goes to the close button of the terminal; then "vela" and Return. -/
def velaEvents : List Event :=
  [8, 127, 127, 8, 127, 127, 8, 16, 16].map .mouse ++
    [.key 0x2f, .key 0x12, .key 0x26, .key 0x1e, .key 0x1c]

/-- The browser is painted with the command still on the terminal's line, and with the terminal's close
button highlighted. -/
theorem scene_up_to_date_vela :
    let d := after ⟨1024, 768, 3⟩ velaEvents
    let scene := (Display.after ⟨0x1000, 1024, 768, 1024, 0⟩ ⟨1024, 768, 3⟩ (fun _ => []) (fun _ => 0)
      velaEvents).scene
    UpToDate d scene ∧ scene.termCmd = ascii "vela" ∧ d.termCmd = [] ∧
      scene.highlighted ⟨1024, 768, 3⟩ scene.mouseX scene.mouseY = ([.terminal], []) := by
  have hruns : (after ⟨1024, 768, 3⟩ velaEvents).halted ≠ true := by decide +kernel
  obtain ⟨huptodate, hhover⟩ := (scene_up_to_date ⟨0x1000, 1024, 768, 1024, 0⟩ ⟨1024, 768, 3⟩ (fun _ => [])
    (fun _ => 0) velaEvents (calm_of_packetSize (by decide) _)).resolve_left hruns
  intro d scene
  refine ⟨huptodate, ?_, by decide +kernel, hhover.trans ?_⟩
  · show (Display.after ⟨0x1000, 1024, 768, 1024, 0⟩ ⟨1024, 768, 3⟩ (fun _ => []) (fun _ => 0)
      velaEvents).scene.termCmd = ascii "vela"
    decide +kernel
  · show (after ⟨1024, 768, 3⟩ velaEvents).highlighted ⟨1024, 768, 3⟩
      (Display.after ⟨0x1000, 1024, 768, 1024, 0⟩ ⟨1024, 768, 3⟩ (fun _ => []) (fun _ => 0)
        velaEvents).scene.mouseX
      (Display.after ⟨0x1000, 1024, 768, 1024, 0⟩ ⟨1024, 768, 3⟩ (fun _ => []) (fun _ => 0)
        velaEvents).scene.mouseY = ([.terminal], [])
    decide +kernel

/-- As long as the cursor only moves, the button is not highlighted in what was painted. -/
theorem highlight_follows_paintings :
    let d := after ⟨1024, 768, 3⟩ (velaEvents.take 9)
    let scene := (Display.after ⟨0x1000, 1024, 768, 1024, 0⟩ ⟨1024, 768, 3⟩ (fun _ => []) (fun _ => 0)
      (velaEvents.take 9)).scene
    d.highlighted ⟨1024, 768, 3⟩ d.mouseX d.mouseY = ([.terminal], []) ∧
      scene.highlighted ⟨1024, 768, 3⟩ scene.mouseX scene.mouseY = ([], []) := by
  decide +kernel

end Orion.Desktop
