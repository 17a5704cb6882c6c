import Orion.Desktop.Layers

/-!
# A drag ends with the button

A drag lasts while the left button is down, and a press is never lost (`DragOk`), unless a packet
that moves the wheel over the page also changes the button (`Swallowed`): `handle_mouse_packet` then
returns before it looks at the button.  Both directions over a run are `dragOk_iff`.
-/

namespace Orion.Desktop

/-- A window that is dragged is drawn and the button is down; every press was dispatched. -/
structure DragOk (d : State) : Prop where
  drag : ∀ app, d.dragging = some app → d.mouseLeft = true ∧ (d.wins app).visible = true
  pressed : ∀ r ∈ d.handled, r.wasDown = false → r.isDown = true → r.dispatched = true

/-- The packet moves the wheel over the page, and the button goes down or ends a drag. -/
def Swallowed (scr : Platform) (d : State) (p : Packet) : Prop :=
  scrolls scr p (moveCursor scr p d) = true ∧
    (d.mouseLeft = false ∧ p.down = true ∨ d.dragging ≠ none ∧ p.down = false)

theorem init_dragOk : DragOk init where
  drag app h := by simp [init] at h
  pressed r hr := by simp [init] at hr

theorem SameLayout.dragOk {d e : State} (hs : SameLayout d e) (h : DragOk d) : DragOk e where
  drag app happ := by
    rw [hs.dragging] at happ
    rw [hs.mouseLeft, hs.wins]
    exact h.drag app happ
  pressed := by
    rw [hs.handled]
    exact h.pressed

/-! ## A step -/

theorem focusApp_visible (d : State) {app : App} (b : App) (h : (d.wins app).visible = true) :
    ((d.focusApp b).wins app).visible = true := by
  by_cases happ : app = b
  · rw [happ]
    exact congrArg Window.visible (d.setWin_self b _)
  · have hother : (d.focusApp b).wins app = d.wins app := d.setWin_of_ne _ happ
    rwa [hother]

theorem DragOk.focusApp {d : State} (h : DragOk d) (b : App) : DragOk (d.focusApp b) where
  drag app happ :=
    have hold := h.drag app happ
    ⟨hold.1, focusApp_visible d b hold.2⟩
  pressed := h.pressed

section

variable {scr : Platform} {d : State}

/-- A press in a window that is drawn starts a drag of that window at most. -/
theorem pressWindow_dragOk (hpressed : ∀ r ∈ d.handled, r.wasDown = false → r.isDown = true →
    r.dispatched = true) (hleft : d.mouseLeft = true) (hnone : d.dragging = none) {app : App}
    (htop : d.topWindowAt d.mouseX d.mouseY = some app) : DragOk (d.pressWindow app) := by
  rcases d.pressWindow_cases app with hclose | ⟨-, hdrag⟩ | hsame
  · rw [hclose]
    exact ⟨fun b hb => absurd (hnone.symm.trans hb) (by simp), hpressed⟩
  · rw [hdrag]
    refine ⟨fun b hb => ⟨hleft, ?_⟩, hpressed⟩
    obtain rfl := Option.some.inj hb
    have hraised : (d.raise app).wins app = { d.wins app with z := d.ztop + 1 } := d.setWin_self app _
    have hvis : (d.wins app).visible = true := (Bool.and_eq_true_iff.mp (topWindowAt_shows htop)).1
    exact (congrArg Window.visible hraised).trans hvis
  · refine hsame.dragOk ⟨fun b hb => ?_, hpressed⟩
    exact absurd (hnone.symm.trans hb) (by simp)

theorem handlePress_dragOk (hpressed : ∀ r ∈ d.handled, r.wasDown = false → r.isDown = true →
    r.dispatched = true) (hleft : d.mouseLeft = true) (hnone : d.dragging = none) :
    DragOk (handlePress scr d) := by
  have h : DragOk d := ⟨fun b hb => absurd (hnone.symm.trans hb) (by simp), hpressed⟩
  rcases handlePress_cases scr d with hsame | ⟨app, hfocus⟩ | ⟨app, hmin⟩ | ⟨app, htop, hpress⟩
  · exact hsame.dragOk h
  · rw [hfocus]
    exact h.focusApp app
  · refine hmin.dragOk ⟨fun b hb => ?_, hpressed⟩
    exact absurd (hnone.symm.trans hb) (by simp)
  · rw [hpress]
    exact pressWindow_dragOk hpressed hleft hnone htop

/-- After the packet has moved the cursor and the window, a drag is left only if the button stayed
down. -/
theorem endDrag_drag (h : DragOk d) (p : Packet) {app : App}
    (happ : (endDrag (dragWindow scr (moveCursor scr p d))).dragging = some app) :
    d.mouseLeft = true ∧ p.down = true ∧
      ((endDrag (dragWindow scr (moveCursor scr p d))).wins app).visible = true := by
  obtain ⟨hdrag, hleft, hprev, -, hvis⟩ := dragWindow_frame scr (moveCursor scr p d)
  unfold endDrag at happ ⊢
  rw [hleft, hprev] at happ ⊢
  by_cases hend : ((moveCursor scr p d).mousePrevLeft && ! (moveCursor scr p d).mouseLeft) = true
  · rw [if_pos hend] at happ
    simp at happ
  · rw [if_neg hend] at happ ⊢
    rw [hdrag] at happ
    obtain ⟨hdown, hshown⟩ := h.drag app happ
    have hstays : p.down = true := by
      by_contra hup
      apply hend
      rw [Bool.and_eq_true_iff]
      exact ⟨hdown, by rw [Bool.not_eq_true'] ; exact Bool.eq_false_iff.mpr hup⟩
    exact ⟨hdown, hstays, (hvis app).trans hshown⟩

/-- The records after one more packet that was dispatched or had not pressed the button. -/
theorem record_pressed {b : Bool} (hpressed : ∀ r ∈ d.handled, r.wasDown = false →
    r.isDown = true → r.dispatched = true)
    (hb : d.mousePrevLeft = false → d.mouseLeft = true → b = true) :
    ∀ r ∈ (d.record b).handled, r.wasDown = false → r.isDown = true → r.dispatched = true := by
  intro r hr
  rcases List.mem_append.mp hr with hold | hnew
  · exact hpressed r hold
  · rw [List.mem_singleton.mp hnew]
    exact hb

/-- **A packet that is not swallowed** keeps the drag and the button together. -/
theorem DragOk.handleMousePacket (h : DragOk d) (p : Packet) (hcalm : ¬ Swallowed scr d p) :
    DragOk (handleMousePacket scr p d) := by
  unfold Orion.Desktop.handleMousePacket
  simp only
  by_cases hscroll : scrolls scr p (moveCursor scr p d) = true
  · -- the wheel: the button has not gone down, and no drag has ended
    rw [if_pos hscroll]
    have hkept := not_and.mp hcalm hscroll
    rw [not_or] at hkept
    refine ⟨fun app happ => ⟨?_, (h.drag app happ).2⟩, ?_⟩
    · have hdragging : d.dragging ≠ none := by
        rw [show d.dragging = some app from happ]
        simp
      by_contra hup
      exact hkept.2 ⟨hdragging, Bool.eq_false_iff.mpr hup⟩
    · exact record_pressed (d := (moveCursor scr p d).call _) h.pressed
        fun hprev hdown => absurd ⟨hprev, hdown⟩ hkept.1
  · rw [if_neg hscroll]
    obtain ⟨-, hleftDrag, hprevDrag, hhandledDrag, -⟩ := dragWindow_frame scr (moveCursor scr p d)
    obtain ⟨hleftEnd, hprevEnd, hhandledEnd⟩ := endDrag_frame (dragWindow scr (moveCursor scr p d))
    have hdrag : ∀ app, (endDrag (dragWindow scr (moveCursor scr p d))).dragging = some app →
        d.mouseLeft = true ∧ p.down = true ∧
          ((endDrag (dragWindow scr (moveCursor scr p d))).wins app).visible = true :=
      fun app happ => endDrag_drag h p happ
    set e := endDrag (dragWindow scr (moveCursor scr p d)) with he
    have hleft : e.mouseLeft = p.down := hleftEnd.trans hleftDrag
    have hprev : e.mousePrevLeft = d.mouseLeft := hprevEnd.trans hprevDrag
    have hpressed : ∀ r ∈ e.handled, r.wasDown = false → r.isDown = true → r.dispatched = true := by
      rw [hhandledEnd, hhandledDrag]
      exact h.pressed
    by_cases hpress : (! e.mousePrevLeft && e.mouseLeft) = true
    · -- the button goes down
      rw [if_pos hpress]
      have hbuttons := Bool.and_eq_true_iff.mp hpress
      have hnone : e.dragging = none := by
        cases happ : e.dragging with
        | none => rfl
        | some app =>
          have hwas := (hdrag app happ).1
          rw [hprev, hwas] at hbuttons
          simp at hbuttons
      exact handlePress_dragOk (record_pressed hpressed fun _ _ => rfl) hbuttons.2 hnone
    · rw [if_neg hpress]
      have hstill : ∀ b, DragOk (e.record b) := by
        intro b
        refine ⟨fun app happ => ?_, record_pressed hpressed fun hup hdown => ?_⟩
        · obtain ⟨-, hdown, hvis⟩ := hdrag app happ
          exact ⟨hleft.trans hdown, hvis⟩
        · rw [hup, hdown] at hpress
          simp at hpress
      split
      · exact (State.call_layout _ _).dragOk (hstill false)
      · exact hstill false

/-- A packet that is swallowed breaks it at once. -/
theorem Swallowed.not_dragOk {p : Packet} (h : Swallowed scr d p) :
    ¬ DragOk (Orion.Desktop.handleMousePacket scr p d) := by
  obtain ⟨hscroll, hbutton⟩ := h
  unfold Orion.Desktop.handleMousePacket
  simp only
  rw [if_pos hscroll]
  intro hok
  rcases hbutton with ⟨hup, hdown⟩ | ⟨hdragging, hup⟩
  · have hlost := hok.pressed ⟨d.mouseLeft, p.down, false⟩ (List.mem_append_right _ List.mem_cons_self)
      hup hdown
    simp at hlost
  · obtain ⟨app, happ⟩ := Option.ne_none_iff_exists'.mp hdragging
    have hheld : p.down = true := (hok.drag app happ).1
    rw [hup] at hheld
    simp at hheld

/-! ## A run -/

theorem DragOk.step (h : DragOk d) {e : Event}
    (hcalm : ∀ p, packetAt scr d e = some p → ¬ Swallowed scr d p) : DragOk (step scr d e) := by
  cases hpacket : packetAt scr d e with
  | some p =>
    rw [step_packet hpacket]
    have hcleared : DragOk { d with mpkt := [] } := ⟨h.drag, h.pressed⟩
    exact hcleared.handleMousePacket p (hcalm p hpacket)
  | none =>
    rcases step_quiet hpacket with hsame | hfocus
    · exact hsame.dragOk h
    · exact hfocus.dragOk (h.focusApp .browser)

theorem Swallowed.step_not_dragOk {e : Event} {p : Packet} (hpacket : packetAt scr d e = some p)
    (h : Swallowed scr d p) : ¬ DragOk (step scr d e) := by
  rw [step_packet hpacket]
  exact Swallowed.not_dragOk (d := { d with mpkt := [] }) h

end

/-- **A drag lasts while the button is down**, and every press is dispatched, throughout a run, exactly
if no packet of the run that scrolls the page lets the button go down or end a drag. -/
theorem dragOk_iff (scr : Platform) (events : List Event) :
    (∀ pre, pre <+: events → DragOk (after scr pre)) ↔
      ∀ pre e p, pre ++ [e] <+: events → packetAt scr (after scr pre) e = some p →
        ¬ Swallowed scr (after scr pre) p := by
  constructor
  · intro hok pre e p hpre hpacket hswallowed
    apply hswallowed.step_not_dragOk hpacket
    rw [← after_append]
    exact hok _ hpre
  · intro hcalm pre
    induction pre using List.reverseRecOn with
    | nil => exact fun _ => init_dragOk
    | append_singleton pre e ih =>
      intro hpre
      rw [after_append]
      have hbefore := ih ((List.prefix_append pre [e]).trans hpre)
      exact hbefore.step fun p hpacket => hcalm pre e p hpre hpacket

/-- "vela" is typed, and over the page of the browser the button goes down with the wheel. -/
def wheelPress : List Event :=
  [.key 0x2f, .key 0x12, .key 0x26, .key 0x1e, .key 0x1c, .mouse 9, .mouse 0, .mouse 0, .mouse 1]

theorem wheelPress_lost : ¬ DragOk (after ⟨1024, 768, 4⟩ wheelPress) := by
  intro hok
  have hrecord : ⟨false, true, false⟩ ∈ (after ⟨1024, 768, 4⟩ wheelPress).handled := by decide +kernel
  have hlost := hok.pressed _ hrecord rfl rfl
  simp at hlost

end Orion.Desktop
