import Orion.Desktop.Drawing

/-!
# Where a press goes

`handle_press` tries the start button, the open menu, the buttons of the taskbar, the cells of the icons and
the highest window, in this order, and takes no notice of what is painted over them.  A press does what is
due to the element that is painted last at the cursor exactly if it is met by this order (`Takes`).
-/

namespace Orion.Desktop

/-! ## Acting on an element -/

/-- A press that goes to an element: beside the buttons of the taskbar, and on the wallpaper, it takes the
focus away. -/
def act (scr : Platform) (d : State) : Option Element → State
  | some .taskbar =>
    if onStartButton scr d then { d with startOpen := ! d.startOpen }
    else
      match taskButtonAt scr d with
      | some app => pressTaskButton d app
      | none => { d with activeApp := none }
  | some .startMenu => pressMenu scr d
  | some (.window app) => d.pressWindow app
  | some (.icon app) => d.focusApp app
  | none => { d with activeApp := none }

/-- The button of the taskbar puts the window away. -/
def State.minimizes (d : State) (app : App) : Bool :=
  (d.wins app).opened && d.activeApp = some app && ! (d.wins app).minimized

/-- There is something for a press in the content of the window. -/
def State.contentTakes (d : State) (app : App) : Bool :=
  let bx := (d.wins app).x + 1
  let by' := (d.wins app).y + titleH + 1
  let bw := (d.wins app).w - 2
  let bh := (d.wins app).h - titleH - 2
  match app with
  | .paint => true
  | .browser =>
    d.cursorIn (bx + 12) (by' + 10) 34 34 || d.cursorIn (bx + 52) (by' + 10) 34 34 ||
      d.cursorIn (bx + 92) (by' + 10) 42 34 || d.cursorIn (bx + bw - 84) (by' + 10) 70 34 ||
        d.cursorIn (bx + 18) (by' + 108) (bw - 36) (bh - 124)
  | .network => d.cursorIn (bx + 24) (by' + 248) 170 36
  | _ => false

/-- A press in the window would bring it to the front and do no more. -/
structure State.Passive (d : State) (app : App) : Prop where
  close : d.cursorIn ((d.wins app).x + (d.wins app).w - 40) ((d.wins app).y + 5) 34 31 = false
  title : d.cursorIn (d.wins app).x (d.wins app).y (d.wins app).w titleH = true →
    d.dragging = some app ∧ d.dragDx = d.mouseX - (d.wins app).x ∧ d.dragDy = d.mouseY - (d.wins app).y
  content : d.cursorIn (d.wins app).x (d.wins app).y (d.wins app).w titleH = false →
    d.contentTakes app = false

section

variable (scr : Platform) (d : State)

/-- The cursor is on an entry of the open menu, on a button of the taskbar or in an icon's cell that brings
the application to the front, with nothing before it in the order. -/
def Fronts (app : App) : Prop :=
  onStartButton scr d = false ∧
    if d.startOpen then menuEntryAt scr d = some app
    else taskButtonAt scr d = some app ∧ d.minimizes app = false ∨
      taskButtonAt scr d = none ∧ iconAt d = some app

/-- The menu is closed, and the cursor is on no button of the taskbar and in no icon's cell. -/
structure Bare : Prop where
  start : onStartButton scr d = false
  menu : d.startOpen = false
  button : taskButtonAt scr d = none
  icon : iconAt d = none

/-- The order of `handle_press` meets the element. -/
def Takes : Option Element → Prop
  | some .startMenu => True
  | some .taskbar => onStartButton scr d = true ∨ d.startOpen = false ∧
      (taskButtonAt scr d ≠ none ∨ iconAt d = none ∧ ∀ app, (d.wins app).shows d.mouseX d.mouseY = false)
  | some (.window app) => Bare scr d ∧ TopAt d d.mouseX d.mouseY app ∨
      d.startOpen = false ∧ d.Passive app ∧ Fronts scr d app
  | some (.icon app) => Fronts scr d app ∨ Bare scr d ∧ TopAt d d.mouseX d.mouseY app ∧ d.Passive app
  | none => Bare scr d ∧ ∀ app, (d.wins app).shows d.mouseX d.mouseY = false

/-! ## The order -/

/-- What a press comes to. -/
inductive Outcome where
  | toggle
  | focus (app : App)
  | shutDown
  | closeMenu
  | minimize (app : App)
  | window (app : App)
  | nothing
  deriving Repr, DecidableEq

def Outcome.run : Outcome → State
  | .toggle => { d with startOpen := ! d.startOpen }
  | .focus app => d.focusApp app
  | .shutDown => { d with halted := true }
  | .closeMenu => { d with startOpen := false }
  | .minimize app => { d.setWin app { d.wins app with minimized := true } with activeApp := none }
  | .window app => d.pressWindow app
  | .nothing => { d with activeApp := none }

def outcome : Outcome :=
  if onStartButton scr d then .toggle
  else if d.startOpen then
    match menuEntryAt scr d with
    | some app => .focus app
    | none => if onShutDown scr d then .shutDown else .closeMenu
  else
    match taskButtonAt scr d with
    | some app => if d.minimizes app then .minimize app else .focus app
    | none =>
      match iconAt d with
      | some app => .focus app
      | none =>
        match d.topWindowAt d.mouseX d.mouseY with
        | some app => .window app
        | none => .nothing

end

section

variable {scr : Platform} {d : State}

theorem pressTaskButton_eq (app : App) :
    pressTaskButton d app = (if d.minimizes app then Outcome.minimize app else .focus app).run d := by
  unfold pressTaskButton State.minimizes
  split <;> rfl

theorem pressMenu_eq (hopen : d.startOpen = true) (hstart : onStartButton scr d = false) :
    pressMenu scr d = (outcome scr d).run d := by
  rw [outcome, hstart, hopen, pressMenu]
  cases menuEntryAt scr d with
  | some app => rfl
  | none =>
    simp only [Bool.false_eq_true, if_false, if_true]
    split <;> rfl

theorem handlePress_eq : handlePress scr d = (outcome scr d).run d := by
  cases hstart : onStartButton scr d with
  | true =>
    rw [handlePress, outcome, hstart]
    rfl
  | false =>
    cases hopen : d.startOpen with
    | true =>
      rw [← pressMenu_eq hopen hstart, handlePress, hstart, hopen]
      rfl
    | false =>
      have hshut : ¬ d.startOpen = true := Bool.eq_false_iff.mp hopen
      rw [handlePress, outcome, hstart, if_neg Bool.false_ne_true, if_neg Bool.false_ne_true, if_neg hshut,
        if_neg hshut]
      cases taskButtonAt scr d with
      | some app => exact pressTaskButton_eq app
      | none =>
        cases iconAt d with
        | some app => rfl
        | none => cases d.topWindowAt d.mouseX d.mouseY <;> rfl

/-- The outcomes with what the tests before them have found. -/
inductive Tried (scr : Platform) (d : State) : Outcome → Prop
  | start : onStartButton scr d = true → Tried scr d .toggle
  | entry (app : App) : onStartButton scr d = false → d.startOpen = true → menuEntryAt scr d = some app →
      Tried scr d (.focus app)
  | shutDown : d.startOpen = true → menuEntryAt scr d = none → Tried scr d .shutDown
  | closeMenu : d.startOpen = true → menuEntryAt scr d = none → Tried scr d .closeMenu
  | minimize (app : App) : d.startOpen = false → taskButtonAt scr d = some app → d.minimizes app = true →
      Tried scr d (.minimize app)
  | button (app : App) : onStartButton scr d = false → d.startOpen = false → taskButtonAt scr d = some app →
      d.minimizes app = false → Tried scr d (.focus app)
  | icon (app : App) : onStartButton scr d = false → d.startOpen = false → taskButtonAt scr d = none →
      iconAt d = some app → Tried scr d (.focus app)
  | window (app : App) : Bare scr d → d.topWindowAt d.mouseX d.mouseY = some app → Tried scr d (.window app)
  | nothing : Bare scr d → d.topWindowAt d.mouseX d.mouseY = none → Tried scr d .nothing

theorem outcome_tried (scr : Platform) (d : State) : Tried scr d (outcome scr d) := by
  unfold outcome
  cases hstart : onStartButton scr d with
  | true => exact .start hstart
  | false =>
    cases hopen : d.startOpen with
    | true =>
      cases hentry : menuEntryAt scr d with
      | some app => exact .entry app hstart hopen hentry
      | none =>
        cases onShutDown scr d with
        | true => exact .shutDown hopen hentry
        | false => exact .closeMenu hopen hentry
    | false =>
      cases hbutton : taskButtonAt scr d with
      | some app =>
        cases hmin : d.minimizes app with
        | true =>
          simp only [hmin]
          exact .minimize app hopen hbutton hmin
        | false =>
          simp only [hmin]
          exact .button app hstart hopen hbutton hmin
      | none =>
        cases hicon : iconAt d with
        | some app => exact .icon app hstart hopen hbutton hicon
        | none =>
          cases htop : d.topWindowAt d.mouseX d.mouseY with
          | some app => exact .window app ⟨hstart, hopen, hbutton, hicon⟩ htop
          | none => exact .nothing ⟨hstart, hopen, hbutton, hicon⟩ htop

theorem outcome_eq_focus {app : App} : outcome scr d = .focus app ↔ Fronts scr d app := by
  constructor
  · intro hout
    have htried := outcome_tried scr d
    rw [hout] at htried
    cases htried with
    | entry _ hstart hopen hentry =>
      refine ⟨hstart, ?_⟩
      rwa [if_pos hopen]
    | button _ hstart hopen hbutton hmin =>
      refine ⟨hstart, ?_⟩
      rw [hopen]
      exact .inl ⟨hbutton, hmin⟩
    | icon _ hstart hopen hbutton hicon =>
      refine ⟨hstart, ?_⟩
      rw [hopen]
      exact .inr ⟨hbutton, hicon⟩
  · rintro ⟨hstart, hfound⟩
    rw [outcome, hstart]
    cases hopen : d.startOpen with
    | true =>
      rw [hopen] at hfound
      simp only [if_true] at hfound
      rw [hfound]
      rfl
    | false =>
      rw [hopen] at hfound
      obtain ⟨hbutton, hmin⟩ | ⟨hbutton, hicon⟩ := hfound
      · rw [hbutton]
        simp only [hmin]
        rfl
      · rw [hbutton, hicon]
        rfl

theorem outcome_eq_window (h : Layered d) {app : App} :
    outcome scr d = .window app ↔ Bare scr d ∧ TopAt d d.mouseX d.mouseY app := by
  rw [← topWindowAt_eq_some_iff h]
  constructor
  · intro hout
    have htried := outcome_tried scr d
    rw [hout] at htried
    cases htried with
    | window _ hbare htop => exact ⟨hbare, htop⟩
  · rintro ⟨hbare, htop⟩
    rw [outcome, hbare.start, hbare.menu, hbare.button, hbare.icon, htop]
    rfl

theorem outcome_eq_nothing (h : Layered d) : outcome scr d = .nothing ↔
    Bare scr d ∧ ∀ app, (d.wins app).shows d.mouseX d.mouseY = false := by
  rw [← topWindowAt_eq_none h]
  constructor
  · intro hout
    have htried := outcome_tried scr d
    rw [hout] at htried
    cases htried with
    | nothing hbare htop => exact ⟨hbare, htop⟩
  · rintro ⟨hbare, htop⟩
    rw [outcome, hbare.start, hbare.menu, hbare.button, hbare.icon, htop]
    rfl

/-! ## Different outcomes -/

theorem Tried.visible (h : Layered d) {app : App} (htried : Tried scr d (.window app)) :
    (d.wins app).visible = true := by
  cases htried with
  | window _ hbare htop => exact (Bool.and_eq_true_iff.mp ((topWindowAt_eq_some_iff h).mp htop).1).1

/-- The content of a window is pressed, or nothing is passed on. -/
theorem pressContent_takes (d : State) (app : App) :
    (d.contentTakes app = false ∧ (d.raise app).pressContent app (d.wins app) = d.raise app) ∨
      (d.contentTakes app = true ∧
        ∃ c, (d.raise app).pressContent app (d.wins app) = (d.raise app).call c) := by
  have hcursor : ∀ rx ry rw' rh, (d.raise app).cursorIn rx ry rw' rh = d.cursorIn rx ry rw' rh :=
    fun _ _ _ _ => rfl
  unfold State.contentTakes State.pressContent
  cases app with
  | paint =>
    simp only
    split <;> exact .inr ⟨trivial, _, rfl⟩
  | browser =>
    simp only [State.pressBrowser, hcursor]
    split_ifs with hback hforward hreload hgo hlink
    · exact .inr ⟨by rw [hback]; rfl, _, rfl⟩
    · exact .inr ⟨by rw [hforward, Bool.or_true]; rfl, _, rfl⟩
    · exact .inr ⟨by rw [hreload, Bool.or_true]; rfl, _, rfl⟩
    · exact .inr ⟨by rw [hgo, Bool.or_true]; rfl, _, rfl⟩
    · exact .inr ⟨by rw [hlink, Bool.or_true], _, rfl⟩
    · simp only [Bool.not_eq_true] at hback hforward hreload hgo hlink
      exact .inl ⟨by rw [hback, hforward, hreload, hgo, hlink]; rfl, rfl⟩
  | network =>
    simp only [hcursor]
    split
    · next hping => exact .inr ⟨hping, _, rfl⟩
    · next hping => exact .inl ⟨Bool.eq_false_iff.mpr hping, rfl⟩
  | terminal => exact .inl ⟨rfl, rfl⟩
  | files => exact .inl ⟨rfl, rfl⟩
  | notes => exact .inl ⟨rfl, rfl⟩
  | about => exact .inl ⟨rfl, rfl⟩

/-- The parts of a window, in the order they are tried. -/
inductive Part (d : State) (app : App) : State → Prop
  | close : d.cursorIn ((d.wins app).x + (d.wins app).w - 40) ((d.wins app).y + 5) 34 31 = true →
      Part d app { (d.raise app).setWin app { (d.raise app).wins app with opened := false } with activeApp := none }
  | title : d.cursorIn ((d.wins app).x + (d.wins app).w - 40) ((d.wins app).y + 5) 34 31 = false →
      d.cursorIn (d.wins app).x (d.wins app).y (d.wins app).w titleH = true →
      Part d app { d.raise app with
        dragging := some app
        dragDx := d.mouseX - (d.wins app).x
        dragDy := d.mouseY - (d.wins app).y }
  | idle : d.cursorIn ((d.wins app).x + (d.wins app).w - 40) ((d.wins app).y + 5) 34 31 = false →
      d.cursorIn (d.wins app).x (d.wins app).y (d.wins app).w titleH = false → d.contentTakes app = false →
      Part d app (d.raise app)
  | content (c : Call) : d.cursorIn (d.wins app).x (d.wins app).y (d.wins app).w titleH = false →
      d.contentTakes app = true → Part d app ((d.raise app).call c)

theorem pressWindow_part (d : State) (app : App) : Part d app (d.pressWindow app) := by
  have hparts : d.pressWindow app =
      if d.cursorIn ((d.wins app).x + (d.wins app).w - 40) ((d.wins app).y + 5) 34 31 then
        { (d.raise app).setWin app { (d.raise app).wins app with opened := false } with activeApp := none }
      else if d.cursorIn (d.wins app).x (d.wins app).y (d.wins app).w titleH then
        { d.raise app with
          dragging := some app
          dragDx := d.mouseX - (d.wins app).x
          dragDy := d.mouseY - (d.wins app).y }
      else (d.raise app).pressContent app (d.wins app) := rfl
  rw [hparts]
  split
  · next hclose => exact .close hclose
  · next hclose =>
    have hclose := Bool.eq_false_iff.mpr hclose
    split
    · next htitle => exact .title hclose htitle
    · next htitle =>
      have htitle := Bool.eq_false_iff.mpr htitle
      obtain ⟨htakes, hsame⟩ | ⟨htakes, c, hcall⟩ := pressContent_takes d app
      · rw [hsame]
        exact .idle hclose htitle htakes
      · rw [hcall]
        exact .content c htitle htakes

/-- A press in a window brings it to the top. -/
theorem Part.raised {e : State} {app : App} (h : Part d app e) : e.ztop = d.ztop + 1 ∧
    e.startOpen = d.startOpen ∧ (e.wins app).z = d.ztop + 1 ∧ ∀ b, b ≠ app → e.wins b = d.wins b := by
  have hself : ((d.raise app).wins app).z = d.ztop + 1 := by
    show ((d.setWin app _).wins app).z = _
    rw [State.setWin_self]
  have hother : ∀ b, b ≠ app → (d.raise app).wins b = d.wins b := fun b hb => d.setWin_of_ne _ hb
  cases h with
  | close hclose =>
    refine ⟨rfl, rfl, ?_, fun b hb => ?_⟩
    · show (((d.raise app).setWin app _).wins app).z = _
      rw [State.setWin_self]
      exact hself
    · show ((d.raise app).setWin app _).wins b = _
      rw [State.setWin_of_ne _ _ hb]
      exact hother b hb
  | title hclose htitle => exact ⟨rfl, rfl, hself, hother⟩
  | idle hclose htitle htakes => exact ⟨rfl, rfl, hself, hother⟩
  | content c htitle htakes => exact ⟨rfl, rfl, hself, hother⟩

/-- **What is pressed in a window is seen.** -/
theorem pressWindow_eq_raise {app : App} : d.pressWindow app = d.raise app ↔ d.Passive app := by
  have hpart := pressWindow_part d app
  constructor
  · intro heq
    rw [heq] at hpart
    generalize hraise : d.raise app = e at hpart
    cases hpart with
    | close hclose =>
      have hactive := congrArg State.activeApp hraise
      cases hactive
    | title hclose htitle =>
      have hdrag := congrArg State.dragging hraise
      have hdx := congrArg State.dragDx hraise
      have hdy := congrArg State.dragDy hraise
      exact ⟨hclose, fun _ => ⟨hdrag, hdx, hdy⟩, fun hnot => absurd (htitle.symm.trans hnot) Bool.noConfusion⟩
    | idle hclose htitle htakes =>
      exact ⟨hclose, fun hin => absurd (hin.symm.trans htitle) Bool.noConfusion, fun _ => htakes⟩
    | content c htitle htakes =>
      have hcalls := congrArg (fun e => e.calls.length) hraise
      simp [State.call] at hcalls
  · intro hpassive
    generalize d.pressWindow app = e at hpart
    cases hpart with
    | close hclose => exact absurd (hclose.symm.trans hpassive.close) Bool.noConfusion
    | title hclose htitle =>
      obtain ⟨hdrag, hdx, hdy⟩ := hpassive.title htitle
      rw [← hdrag, ← hdx, ← hdy]
      rfl
    | idle hclose htitle htakes => rfl
    | content c htitle htakes => exact absurd (htakes.symm.trans (hpassive.content htitle)) Bool.noConfusion

/-- The menu is closed already and the window is shown. -/
theorem focusApp_eq_raise {app : App} (hvis : (d.wins app).visible = true) (hopen : d.startOpen = false) :
    d.focusApp app = d.raise app := by
  obtain ⟨hopened, hminimized⟩ := Bool.and_eq_true_iff.mp hvis
  have hmin : (d.wins app).minimized = false := by
    rwa [Bool.not_eq_true'] at hminimized
  have hwin : { d.wins app with opened := true, minimized := false, z := d.ztop + 1 } =
      { d.wins app with z := d.ztop + 1 } := by
    rw [Window.mk.injEq]
    exact ⟨rfl, rfl, rfl, rfl, hopened.symm, hmin.symm, rfl⟩
  rw [State.focusApp, hwin, ← hopen]
  rfl

theorem focusApp_eq_pressWindow {app : App} (hvis : (d.wins app).visible = true) :
    d.focusApp app = d.pressWindow app ↔ d.startOpen = false ∧ d.Passive app := by
  rw [← pressWindow_eq_raise]
  constructor
  · intro heq
    have hopen : false = d.startOpen := (congrArg State.startOpen heq).trans (pressWindow_part d app).raised.2.1
    exact ⟨hopen.symm, heq.symm.trans (focusApp_eq_raise hvis hopen.symm)⟩
  · rintro ⟨hopen, hraise⟩
    rw [hraise, focusApp_eq_raise hvis hopen]

/-- The window that comes to the top. -/
def Outcome.raised : Outcome → Option App
  | .focus app => some app
  | .window app => some app
  | _ => none

theorem Outcome.run_of_raised {o : Outcome} {app : App} (h : o.raised = some app) :
    (o.run d).ztop = d.ztop + 1 ∧ ((o.run d).wins app).z = d.ztop + 1 ∧
      ∀ b, b ≠ app → (o.run d).wins b = d.wins b := by
  cases o with
  | focus a =>
    cases h
    refine ⟨rfl, ?_, fun b hb => d.setWin_of_ne _ hb⟩
    show ((d.setWin app _).wins app).z = _
    rw [State.setWin_self]
  | window a =>
    cases h
    obtain ⟨hztop, -, hz, hother⟩ := (pressWindow_part d app).raised
    exact ⟨hztop, hz, hother⟩
  | toggle => cases h
  | shutDown => cases h
  | closeMenu => cases h
  | minimize a => cases h
  | nothing => cases h

theorem Outcome.ztop_of_not_raised {o : Outcome} (h : o.raised = none) : (o.run d).ztop = d.ztop := by
  cases o with
  | focus a => cases h
  | window a => cases h
  | toggle => rfl
  | shutDown => rfl
  | closeMenu => rfl
  | minimize a => rfl
  | nothing => rfl

/-- **The window that comes to the top is seen in the state.** -/
theorem raised_of_run_eq (h : Layered d) {o p : Outcome} (heq : o.run d = p.run d) : o.raised = p.raised := by
  cases hraised : o.raised with
  | none =>
    cases hraised' : p.raised with
    | none => rfl
    | some app =>
      have hztop := Outcome.ztop_of_not_raised (d := d) hraised
      rw [heq, (Outcome.run_of_raised hraised').1] at hztop
      omega
  | some app =>
    obtain ⟨hztop, hz, -⟩ := Outcome.run_of_raised (d := d) hraised
    cases hraised' : p.raised with
    | none =>
      rw [heq, Outcome.ztop_of_not_raised hraised'] at hztop
      omega
    | some app' =>
      by_contra hne
      have hother := (Outcome.run_of_raised (d := d) hraised').2.2 app fun happ => hne (congrArg some happ)
      have hrange := (h.range app).2
      rw [heq, hother] at hz
      omega

/-! ## What the order does -/

theorem handlePress_eq_focusApp (h : Layered d) {app : App} : handlePress scr d = d.focusApp app ↔
    Fronts scr d app ∨ Bare scr d ∧ TopAt d d.mouseX d.mouseY app ∧ d.Passive app := by
  rw [handlePress_eq, ← outcome_eq_focus, ← and_assoc, ← outcome_eq_window h]
  have htried := outcome_tried scr d
  generalize outcome scr d = o at htried ⊢
  constructor
  · intro heq
    have hraised : o.raised = some app := raised_of_run_eq (p := .focus app) h heq
    cases o with
    | focus a =>
      cases hraised
      exact .inl rfl
    | window a =>
      cases hraised
      exact .inr ⟨rfl, ((focusApp_eq_pressWindow (htried.visible h)).mp heq.symm).2⟩
    | _ => cases hraised
  · rintro (rfl | ⟨rfl, hpassive⟩)
    · rfl
    · have hvis := htried.visible h
      cases htried with
      | window _ hbare _ => exact ((focusApp_eq_pressWindow hvis).mpr ⟨hbare.menu, hpassive⟩).symm

theorem handlePress_eq_pressWindow (h : Layered d) {app : App} (hvis : (d.wins app).visible = true) :
    handlePress scr d = d.pressWindow app ↔ Bare scr d ∧ TopAt d d.mouseX d.mouseY app ∨
      d.startOpen = false ∧ d.Passive app ∧ Fronts scr d app := by
  rw [handlePress_eq, ← and_assoc, ← outcome_eq_focus, ← outcome_eq_window h, ← focusApp_eq_pressWindow hvis]
  generalize outcome scr d = o
  constructor
  · intro heq
    have hraised : o.raised = some app := raised_of_run_eq (p := .window app) h heq
    cases o with
    | focus a =>
      cases hraised
      exact .inr ⟨heq, rfl⟩
    | window a =>
      cases hraised
      exact .inl rfl
    | _ => cases hraised
  · rintro (rfl | ⟨heq, rfl⟩)
    · rfl
    · exact heq

theorem handlePress_eq_nothing (h : Layered d) (hruns : d.halted = false) :
    handlePress scr d = { d with activeApp := none } ↔
      Bare scr d ∧ ∀ app, (d.wins app).shows d.mouseX d.mouseY = false := by
  rw [handlePress_eq, ← outcome_eq_nothing h]
  have htried := outcome_tried scr d
  generalize outcome scr d = o at htried ⊢
  constructor
  · intro heq
    have hraised : o.raised = none := raised_of_run_eq (p := .nothing) h heq
    cases htried with
    | start hstart =>
      have hopen : (! d.startOpen) = d.startOpen := congrArg State.startOpen heq
      simp at hopen
    | shutDown hopen hentry =>
      have hhalted : true = d.halted := congrArg State.halted heq
      exact absurd (hhalted.trans hruns) Bool.noConfusion
    | closeMenu hopen hentry =>
      have hclosed : false = d.startOpen := congrArg State.startOpen heq
      exact absurd (hclosed.trans hopen) Bool.noConfusion
    | minimize app hopen hbutton hmin =>
      have hwin : (d.setWin app { d.wins app with minimized := true }).wins app = d.wins app :=
        congrArg (fun e => e.wins app) heq
      rw [State.setWin_self] at hwin
      have hminimized : true = (d.wins app).minimized := congrArg Window.minimized hwin
      rw [State.minimizes, ← hminimized] at hmin
      simp at hmin
    | nothing hbare htop => rfl
    | _ => cases hraised
  · rintro rfl
    rfl

/-! ## Where the buttons are -/

theorem App.index_range (app : App) : 0 ≤ app.index ∧ app.index ≤ 6 := by
  cases app <;> decide

theorem onStartButton_below (h : onStartButton scr d = true) : scr.taskbarY ≤ d.mouseY := by
  have hbox := cursorIn_iff.mp h
  omega

theorem taskButtonAt_below {app : App} (h : taskButtonAt scr d = some app) : scr.taskbarY ≤ d.mouseY := by
  let p := fun app : App => d.cursorIn (70 + app.index * 48) (scr.taskbarY + 8) 40 38
  have hin : p app = true := List.find?_some h
  have hbox := cursorIn_iff.mp hin
  omega

/-- The entries of the menu are above the taskbar. -/
theorem menuEntryAt_below (h : scr.taskbarY ≤ d.mouseY) : menuEntryAt scr d = none := by
  rw [menuEntryAt, List.find?_eq_none]
  intro app _ hin
  have hbox := cursorIn_iff.mp hin
  have hindex := app.index_range
  omega

theorem onShutDown_below (h : scr.taskbarY ≤ d.mouseY) : onShutDown scr d = false := by
  rw [Bool.eq_false_iff]
  intro hin
  have hbox := cursorIn_iff.mp hin
  omega

/-- Above the taskbar there is none of its buttons. -/
theorem above_taskbar (hy : d.mouseY < scr.taskbarY) :
    onStartButton scr d = false ∧ taskButtonAt scr d = none := by
  constructor
  · rw [Bool.eq_false_iff]
    intro hin
    have hbelow := onStartButton_below hin
    omega
  · cases hbutton : taskButtonAt scr d with
    | none => rfl
    | some app =>
      have hbelow := taskButtonAt_below hbutton
      omega

/-- A press in the highest window. -/
theorem handlePress_window (h : Layered d) (hopen : d.startOpen = false)
    (hy : d.mouseY < scr.taskbarY) (hicon : iconAt d = none) {app : App}
    (htop : TopAt d d.mouseX d.mouseY app) : handlePress scr d = d.pressWindow app := by
  obtain ⟨hstart, hbutton⟩ := above_taskbar hy
  have hvis := (Bool.and_eq_true_iff.mp htop.1).1
  exact (handlePress_eq_pressWindow h hvis).mpr (.inl ⟨⟨hstart, hopen, hbutton, hicon⟩, htop⟩)

/-! ## The menu and the taskbar -/

theorem handlePress_start (h : onStartButton scr d = true) :
    handlePress scr d = { d with startOpen := ! d.startOpen } := by
  rw [handlePress, h]
  rfl

/-- The open menu takes every press, also one on the start button. -/
theorem handlePress_menu (hopen : d.startOpen = true) : handlePress scr d = pressMenu scr d := by
  cases hstart : onStartButton scr d with
  | false => rw [handlePress_eq, pressMenu_eq hopen hstart]
  | true =>
    have hbelow := onStartButton_below hstart
    rw [handlePress_start hstart, pressMenu, menuEntryAt_below hbelow, onShutDown_below hbelow, hopen]
    rfl

/-- The open menu takes a press on a button of the taskbar. -/
theorem handlePress_beside_menu (h : Layered d) (hopen : d.startOpen = true) {app : App}
    (hbutton : taskButtonAt scr d = some app) (hstart : onStartButton scr d = false) :
    handlePress scr d ≠ pressTaskButton d app := by
  have hentry : menuEntryAt scr d = none := menuEntryAt_below (taskButtonAt_below hbutton)
  have hshut : onShutDown scr d = false := onShutDown_below (taskButtonAt_below hbutton)
  have hclose : outcome scr d = .closeMenu := by
    rw [outcome, hstart, hopen, hentry, hshut]
    rfl
  rw [handlePress_eq, hclose, pressTaskButton_eq]
  intro heq
  cases hmin : d.minimizes app with
  | true =>
    rw [hmin] at heq
    have hclosed : false = d.startOpen := congrArg State.startOpen heq
    exact absurd (hclosed.trans hopen) Bool.noConfusion
  | false =>
    rw [hmin] at heq
    have hraised : none = some app := raised_of_run_eq (p := .focus app) h heq
    cases hraised

theorem handlePress_eq_taskbar (h : Layered d) (hruns : d.halted = false) :
    handlePress scr d = act scr d (some .taskbar) ↔ Takes scr d (some .taskbar) := by
  cases hstart : onStartButton scr d with
  | true =>
    rw [handlePress_start hstart, act, if_pos hstart]
    exact iff_of_true rfl (.inl hstart)
  | false =>
    rw [act, hstart, if_neg Bool.false_ne_true, Takes, hstart]
    cases hbutton : taskButtonAt scr d with
    | some app =>
      cases hopen : d.startOpen with
      | true => simpa using handlePress_beside_menu h hopen hbutton hstart
      | false =>
        have hpress : handlePress scr d = pressTaskButton d app := by
          rw [handlePress, hstart, hopen, hbutton]
          rfl
        rw [hpress]
        simp
    | none =>
      rw [handlePress_eq_nothing h hruns]
      constructor
      · rintro ⟨hbare, hnone⟩
        exact .inr ⟨hbare.menu, .inr ⟨hbare.icon, hnone⟩⟩
      · rintro (hnot | ⟨hopen, hnot | ⟨hicon, hnone⟩⟩)
        · exact absurd hnot Bool.false_ne_true
        · exact absurd rfl hnot
        · exact ⟨⟨hstart, hopen, hbutton, hicon⟩, hnone⟩

/-! ## What is painted last -/

variable {ink : Element → ℤ → ℤ → Bool} {x y : ℤ}

theorem mem_painted {e : Element} (h : topPainted scr d ink x y = some e) : e ∈ painted d :=
  List.mem_reverse.mp (List.mem_of_find?_eq_some h)

theorem topPainted_visible (h : Layered d) {app : App} (htop : topPainted scr d ink x y = some (.window app)) :
    (d.wins app).visible = true := by
  have hmem := mem_painted htop
  unfold painted at hmem
  rw [← mem_drawOrder h]
  cases hopen : d.startOpen <;> simpa [hopen] using hmem

theorem topPainted_startMenu (htop : topPainted scr d ink x y = some .startMenu) : d.startOpen = true := by
  have hmem := mem_painted htop
  unfold painted at hmem
  by_contra hshut
  simp [hshut] at hmem

end

/-- **A press goes to what is painted last exactly if it is met.** -/
theorem handlePress_topPainted_iff (scr : Platform) (ink : Element → ℤ → ℤ → Bool) (events : List Event)
    (x y : ℤ) (hruns : (after scr events).halted = false) :
    let d := { after scr events with mouseX := x, mouseY := y }
    (handlePress scr d = act scr d (topPainted scr d ink x y) ↔ Takes scr d (topPainted scr d ink x y)) ∧
    ∀ app, TopAt d x y app →
      (handlePress scr d = d.pressWindow app ↔
        Bare scr d ∨ d.startOpen = false ∧ d.Passive app ∧ Fronts scr d app) := by
  intro d
  have h : Layered d := (after_layered scr events).congr (fun _ => rfl) rfl
  constructor
  · cases htop : topPainted scr d ink x y with
    | none => exact handlePress_eq_nothing h hruns
    | some e =>
      cases e with
      | icon app => exact handlePress_eq_focusApp h
      | window app => exact handlePress_eq_pressWindow h (topPainted_visible h htop)
      | startMenu => exact iff_of_true (handlePress_menu (topPainted_startMenu htop)) trivial
      | taskbar => exact handlePress_eq_taskbar h hruns
  · intro app htop
    rw [handlePress_eq_pressWindow h (Bool.and_eq_true_iff.mp htop.1).1]
    exact or_congr_left (and_iff_left htop)

def smallScreen : Platform := ⟨1024, 768, 3⟩

/-- The terminal is dragged to the left edge, over the icons. -/
def dragBytes : List UInt8 :=
  [8, 0, 127, 8, 0, 127, 8, 0, 26, 9, 0, 0, 9, 128, 0, 9, 128, 0, 9, 128, 0, 9, 128, 0, 9, 128, 0]

/-- The cursor goes to the start button and the menu is opened. -/
def menuBytes : List UInt8 :=
  [8, 128, 128, 8, 128, 128, 8, 128, 192, 8, 128, 0, 8, 128, 0, 8, 226, 0, 9, 0, 0]

def noInk : Element → ℤ → ℤ → Bool := fun _ _ _ => false

/-- Beside the icons the terminal that covers them is met. -/
theorem handlePress_topPainted_iff_terminal :
    let d := { after smallScreen (dragBytes.map .mouse) with mouseX := 300, mouseY := 400 }
    topPainted smallScreen d noInk 300 400 = some (.window .terminal) ∧
      handlePress smallScreen d = d.pressWindow .terminal := by
  intro d
  have hruns : (after smallScreen (dragBytes.map .mouse)).halted = false := by decide +kernel
  have htop : topPainted smallScreen d noInk 300 400 = some (.window .terminal) := by decide +kernel
  have hbare : Bare smallScreen d :=
    ⟨by decide +kernel, by decide +kernel, by decide +kernel, by decide +kernel⟩
  have hhigh : TopAt d 300 400 .terminal := by
    refine ⟨by decide +kernel, fun b hb => ?_⟩
    revert hb
    cases b <;> decide +kernel
  obtain ⟨hiff, -⟩ := handlePress_topPainted_iff smallScreen noInk (dragBytes.map .mouse) 300 400 hruns
  change handlePress smallScreen d = act smallScreen d (topPainted smallScreen d noInk 300 400) ↔
    Takes smallScreen d (topPainted smallScreen d noInk 300 400) at hiff
  rw [htop] at hiff
  exact ⟨htop, hiff.mpr (.inl ⟨hbare, hhigh⟩)⟩

def besideIcon : State := { after smallScreen [] with mouseX := 21, mouseY := 37 }

/-- The cursor is on the shadow of the terminal. -/
def onShadow : State := { after smallScreen [] with mouseX := 1003, mouseY := 300 }

/-- The terminal is over the icons, and the cursor is there. -/
def iconHidden : State := { after smallScreen (dragBytes.map .mouse) with mouseX := 50, mouseY := 150 }

/-- The menu is open, and the cursor is in the terminal. -/
def menuOpen : State := { after smallScreen (menuBytes.map .mouse) with mouseX := 500, mouseY := 300 }

def lowScreen : Platform := ⟨1024, 600, 3⟩

/-- The cursor is beside the buttons of the taskbar, where the terminal is behind it. -/
def onTaskbar : State := { after lowScreen [] with mouseX := 500, mouseY := 560 }

/-- A press beside an icon opens it, one on a shadow and one in the terminal beside the menu do not go to the
terminal, and an icon under the terminal and the terminal behind the taskbar are pressed. -/
theorem handlePress_not_on_top :
    (topPainted smallScreen besideIcon noInk 21 37 = none ∧
      handlePress smallScreen besideIcon ≠ act smallScreen besideIcon none) ∧
    (topPainted smallScreen onShadow noInk 1003 300 = some (.window .terminal) ∧
      handlePress smallScreen onShadow ≠ act smallScreen onShadow (some (.window .terminal))) ∧
    (topPainted smallScreen iconHidden noInk 50 150 = some (.window .terminal) ∧
      handlePress smallScreen iconHidden ≠ act smallScreen iconHidden (some (.window .terminal))) ∧
    (topPainted smallScreen menuOpen noInk 500 300 = some (.window .terminal) ∧
      handlePress smallScreen menuOpen ≠ act smallScreen menuOpen (some (.window .terminal))) ∧
    topPainted lowScreen onTaskbar noInk 500 560 = some .taskbar ∧
      handlePress lowScreen onTaskbar ≠ act lowScreen onTaskbar (some .taskbar) := by
  refine ⟨⟨by decide, fun heq => ?_⟩, ⟨by decide, fun heq => ?_⟩, ⟨by decide +kernel, fun heq => ?_⟩,
    ⟨by decide +kernel, fun heq => ?_⟩, by decide, fun heq => ?_⟩
  · have hztop := congrArg State.ztop heq
    revert hztop
    decide
  · have hztop := congrArg State.ztop heq
    revert hztop
    decide
  · have hactive := congrArg State.activeApp heq
    revert hactive
    decide +kernel
  · have hopen := congrArg State.startOpen heq
    revert hopen
    decide +kernel
  · have hztop := congrArg State.ztop heq
    revert hztop
    decide

end Orion.Desktop
