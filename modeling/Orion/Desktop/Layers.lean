import Mathlib.Data.List.Induction
import Orion.Desktop.Steps

/-!
# What is on top

The windows are drawn from the lowest `z` to the highest (`drawOrder`).  No two of them ever have the
same `z`, and no `z` is above `ztop` (`Layered`), so that every visible window is drawn and the last one
that holds a point is the one that `top_window_at` finds (`topWindowAt_eq_some_iff`).
-/

namespace Orion.Desktop

/-! ## The order of painting -/

/-- The window is drawn, and the point is in it. -/
def Window.shows (w : Window) (x y : ℤ) : Bool := w.visible && inside x y w.x w.y w.w w.h

/-- The loops of `draw_windows`. -/
def drawOrder (d : State) : List App :=
  (List.range (d.ztop + 1).toNat).flatMap fun z : ℕ =>
    App.all.filter fun app => (d.wins app).visible && (d.wins app).z = (z : ℤ)

/-! ## Distinct layers -/

/-- No two windows have the same `z`, and all are between 0 and `ztop`. -/
structure Layered (d : State) : Prop where
  inj : ∀ a b, (d.wins a).z = (d.wins b).z → a = b
  range : ∀ a, 0 ≤ (d.wins a).z ∧ (d.wins a).z ≤ d.ztop

theorem init_layered : Layered init where
  inj := by
    intro a b h
    cases a <;> cases b <;> first | rfl | exact absurd h (by decide)
  range := by
    intro a
    cases a <;> decide

theorem Layered.congr {d e : State} (h : Layered d) (hz : ∀ a, (e.wins a).z = (d.wins a).z)
    (ht : e.ztop = d.ztop) : Layered e where
  inj a b hab := h.inj a b (by rwa [hz, hz] at hab)
  range a := by
    rw [hz, ht]
    exact h.range a

theorem SameLayout.layered {d e : State} (hs : SameLayout d e) (h : Layered d) : Layered e :=
  h.congr (fun a => by rw [hs.wins]) hs.ztop

/-- A change of a window that leaves its `z`. -/
theorem Layered.setWin {d : State} (h : Layered d) (app : App) (w : Window)
    (hz : w.z = (d.wins app).z) : Layered (d.setWin app w) := by
  refine h.congr (fun a => ?_) rfl
  by_cases ha : a = app
  · rw [ha, State.setWin_self, hz]
  · rw [d.setWin_of_ne w ha]

/-- A window that comes to the top. -/
theorem Layered.raise {d e : State} (h : Layered d) (app : App) (w : Window)
    (hz : w.z = d.ztop + 1) (hwins : e.wins = (d.setWin app w).wins) (ht : e.ztop = d.ztop + 1) :
    Layered e where
  inj a b hab := by
    have ha := h.range a
    have hb := h.range b
    rw [hwins] at hab
    by_cases haapp : a = app
    · by_cases hbapp : b = app
      · rw [haapp, hbapp]
      · rw [haapp, State.setWin_self, d.setWin_of_ne w hbapp, hz] at hab
        omega
    · by_cases hbapp : b = app
      · rw [hbapp, State.setWin_self, d.setWin_of_ne w haapp, hz] at hab
        omega
      · rw [d.setWin_of_ne w haapp, d.setWin_of_ne w hbapp] at hab
        exact h.inj a b hab
  range a := by
    have ha := h.range a
    have happ := h.range app
    rw [hwins, ht]
    by_cases haapp : a = app
    · rw [haapp, State.setWin_self, hz]
      omega
    · rw [d.setWin_of_ne w haapp]
      omega

theorem Layered.focusApp {d : State} (h : Layered d) (app : App) : Layered (d.focusApp app) :=
  h.raise app { d.wins app with opened := true, minimized := false, z := d.ztop + 1 } rfl rfl rfl

theorem Layered.raised {d : State} (h : Layered d) (app : App) : Layered (d.raise app) :=
  h.raise app { d.wins app with z := d.ztop + 1 } rfl rfl rfl

theorem Layered.pressWindow {d : State} (h : Layered d) (app : App) : Layered (d.pressWindow app) := by
  have hraised := h.raised app
  rcases d.pressWindow_cases app with hclose | ⟨-, hdrag⟩ | hsame
  · rw [hclose]
    have hclosed := hraised.setWin app { (d.raise app).wins app with opened := false } rfl
    exact hclosed.congr (fun _ => rfl) rfl
  · rw [hdrag]
    exact hraised.congr (fun _ => rfl) rfl
  · exact hsame.layered hraised

section

variable {scr : Platform} {d : State}

theorem Layered.handlePress (h : Layered d) : Layered (handlePress scr d) := by
  rcases handlePress_cases scr d with hsame | ⟨app, hfocus⟩ | ⟨app, hmin⟩ | ⟨app, -, hpress⟩
  · exact hsame.layered h
  · rw [hfocus]
    exact h.focusApp app
  · exact hmin.layered (h.setWin app _ rfl)
  · rw [hpress]
    exact h.pressWindow app

theorem Layered.dragWindow (h : Layered d) (scr : Platform) : Layered (dragWindow scr d) := by
  unfold Orion.Desktop.dragWindow
  cases d.dragging with
  | none => exact h
  | some app =>
    simp only
    split
    · exact h.setWin app _ rfl
    · exact h

theorem Layered.handleMousePacket (h : Layered d) (p : Packet) :
    Layered (handleMousePacket scr p d) := by
  have hmoved : Layered (moveCursor scr p d) := h.congr (fun _ => rfl) rfl
  have hdragged : Layered (endDrag (Orion.Desktop.dragWindow scr (moveCursor scr p d))) := by
    refine (hmoved.dragWindow scr).congr (fun a => ?_) ?_
    · unfold endDrag
      split <;> rfl
    · unfold endDrag
      split <;> rfl
  unfold Orion.Desktop.handleMousePacket
  simp only
  split
  · exact hmoved.congr (fun _ => rfl) rfl
  · split
    · exact Layered.handlePress (hdragged.congr (fun _ => rfl) rfl)
    · split
      · exact hdragged.congr (fun _ => rfl) rfl
      · exact hdragged.congr (fun _ => rfl) rfl

theorem Layered.step (h : Layered d) (e : Event) : Layered (step scr d e) := by
  cases hpacket : packetAt scr d e with
  | some p =>
    rw [step_packet hpacket]
    have hcleared : Layered { d with mpkt := [] } := h.congr (fun _ => rfl) rfl
    exact hcleared.handleMousePacket p
  | none =>
    rcases step_quiet hpacket with hsame | hfocus
    · exact hsame.layered h
    · exact hfocus.layered (h.focusApp .browser)

end

theorem after_layered (scr : Platform) (events : List Event) : Layered (after scr events) := by
  induction events using List.reverseRecOn with
  | nil => exact init_layered
  | append_singleton events e ih =>
    rw [after_append]
    exact ih.step e

/-! ## The top window -/

theorem App.mem_all (app : App) : app ∈ App.all := by
  cases app <;> decide

section

variable {d : State} {x y : ℤ}

/-- The loop of `top_window_at` keeps its candidate or finds the highest window of the rest. -/
theorem topFrom_spec (l : List App) : ∀ r : Option App × ℤ,
    (d.topFrom x y l r = r.1 ∧ ∀ b ∈ l, (d.wins b).shows x y = true → (d.wins b).z ≤ r.2) ∨
      ∃ a ∈ l, d.topFrom x y l r = some a ∧ (d.wins a).shows x y = true ∧ r.2 < (d.wins a).z ∧
        ∀ b ∈ l, (d.wins b).shows x y = true → (d.wins b).z ≤ (d.wins a).z := by
  induction l with
  | nil =>
    intro r
    exact .inl ⟨rfl, by simp⟩
  | cons app l ih =>
    intro r
    have hunfold : d.topFrom x y (app :: l) r =
        if ((d.wins app).shows x y && (d.wins app).z > r.2) = true then
          d.topFrom x y l (some app, (d.wins app).z)
        else d.topFrom x y l r := rfl
    rw [hunfold]
    by_cases hbetter : ((d.wins app).shows x y && (d.wins app).z > r.2) = true
    · rw [if_pos hbetter]
      have hsplit := Bool.and_eq_true_iff.mp hbetter
      have hshow := hsplit.1
      have hz : r.2 < (d.wins app).z := of_decide_eq_true hsplit.2
      right
      rcases ih (some app, (d.wins app).z) with ⟨hres, hall⟩ | ⟨a, ha, hres, hashow, hlt, hall⟩
      · refine ⟨app, List.mem_cons_self, hres, hshow, hz, fun b hb hbshow => ?_⟩
        rcases List.mem_cons.mp hb with rfl | hb
        · exact le_refl _
        · exact hall b hb hbshow
      · refine ⟨a, List.mem_cons_of_mem _ ha, hres, hashow, hz.trans hlt, fun b hb hbshow => ?_⟩
        rcases List.mem_cons.mp hb with rfl | hb
        · exact hlt.le
        · exact hall b hb hbshow
    · rw [if_neg hbetter]
      have hlow : (d.wins app).shows x y = true → (d.wins app).z ≤ r.2 := by
        intro hshow
        by_contra hlt
        exact hbetter (Bool.and_eq_true_iff.mpr ⟨hshow, decide_eq_true (not_le.mp hlt)⟩)
      rcases ih r with ⟨hres, hall⟩ | ⟨a, ha, hres, hashow, hlt, hall⟩
      · refine .inl ⟨hres, fun b hb hbshow => ?_⟩
        rcases List.mem_cons.mp hb with rfl | hb
        · exact hlow hbshow
        · exact hall b hb hbshow
      · refine .inr ⟨a, List.mem_cons_of_mem _ ha, hres, hashow, hlt, fun b hb hbshow => ?_⟩
        rcases List.mem_cons.mp hb with rfl | hb
        · exact (hlow hbshow).trans hlt.le
        · exact hall b hb hbshow

/-- The window is drawn at the point, and none above it is. -/
def TopAt (d : State) (x y : ℤ) (app : App) : Prop :=
  (d.wins app).shows x y = true ∧ ∀ b, (d.wins b).shows x y = true → (d.wins b).z ≤ (d.wins app).z

theorem topWindowAt_shows {app : App} (h : d.topWindowAt x y = some app) :
    (d.wins app).shows x y = true := by
  rcases topFrom_spec (d := d) (x := x) (y := y) App.all (none, -1) with ⟨hres, -⟩ | ⟨a, -, hres, hshow, -⟩
  · rw [State.topWindowAt, hres] at h
    simp at h
  · rw [State.topWindowAt, hres] at h
    rwa [← Option.some.inj h]

/-- **`top_window_at` finds the highest window at the point.** -/
theorem topWindowAt_eq_some_iff (h : Layered d) {app : App} :
    d.topWindowAt x y = some app ↔ TopAt d x y app := by
  have hspec := topFrom_spec (d := d) (x := x) (y := y) App.all (none, -1)
  constructor
  · intro htop
    rcases hspec with ⟨hres, -⟩ | ⟨a, -, hres, hshow, -, hall⟩
    · rw [State.topWindowAt, hres] at htop
      simp at htop
    · rw [State.topWindowAt, hres] at htop
      obtain rfl := Option.some.inj htop
      exact ⟨hshow, fun b hb => hall b b.mem_all hb⟩
  · rintro ⟨hshow, hmax⟩
    rcases hspec with ⟨-, hall⟩ | ⟨a, -, hres, hashow, -, hall⟩
    · have hneg : (d.wins app).z ≤ -1 := hall app app.mem_all hshow
      have hrange := h.range app
      omega
    · rw [State.topWindowAt, hres]
      congr 1
      exact h.inj a app (le_antisymm (hmax a hashow) (hall app app.mem_all hshow))

theorem topWindowAt_eq_none (h : Layered d) :
    d.topWindowAt x y = none ↔ ∀ b, (d.wins b).shows x y = false := by
  constructor
  · intro hnone b
    have hspec := topFrom_spec (d := d) (x := x) (y := y) App.all (none, -1)
    rcases hspec with ⟨-, hall⟩ | ⟨a, -, hres, -⟩
    · rw [Bool.eq_false_iff]
      intro hshow
      have hneg : (d.wins b).z ≤ -1 := hall b b.mem_all hshow
      have hrange := h.range b
      omega
    · rw [State.topWindowAt, hres] at hnone
      simp at hnone
  · intro hall
    cases htop : d.topWindowAt x y with
    | none => rfl
    | some app =>
      have hshow := ((topWindowAt_eq_some_iff h).mp htop).1
      rw [hall app] at hshow
      simp at hshow

theorem mem_drawOrder (h : Layered d) {app : App} : app ∈ drawOrder d ↔ (d.wins app).visible = true := by
  unfold drawOrder
  rw [List.mem_flatMap]
  constructor
  · rintro ⟨z, -, hmem⟩
    exact (Bool.and_eq_true_iff.mp (List.mem_filter.mp hmem).2).1
  · intro hvis
    have hrange := h.range app
    refine ⟨(d.wins app).z.toNat, List.mem_range.mpr (by omega), List.mem_filter.mpr ⟨app.mem_all, ?_⟩⟩
    rw [hvis, Bool.true_and, decide_eq_true_eq]
    omega

/-- Windows are drawn from the lowest to the highest. -/
theorem drawOrder_sorted (d : State) :
    (drawOrder d).Pairwise fun a b => (d.wins a).z ≤ (d.wins b).z := by
  have hlayer : ∀ (z : ℕ) (app : App), app ∈ (App.all.filter fun app =>
      (d.wins app).visible && (d.wins app).z = (z : ℤ)) → (d.wins app).z = z := by
    intro z app hmem
    exact of_decide_eq_true (Bool.and_eq_true_iff.mp (List.mem_filter.mp hmem).2).2
  unfold drawOrder
  rw [List.pairwise_flatMap]
  constructor
  · intro z _
    refine List.pairwise_of_forall_mem_list fun a ha b hb => ?_
    rw [hlayer z a ha, hlayer z b hb]
  · refine List.Pairwise.imp (fun {u v} hlt a ha b hb => ?_) List.pairwise_lt_range
    rw [hlayer u a ha, hlayer v b hb]
    exact_mod_cast hlt.le

/-- **The window that is drawn last at a point is the one that `top_window_at` finds.** -/
theorem lastDrawn_eq (h : Layered d) :
    (drawOrder d).reverse.find? (fun app => (d.wins app).shows x y) = d.topWindowAt x y := by
  cases hlast : (drawOrder d).reverse.find? (fun app => (d.wins app).shows x y) with
  | none =>
    symm
    rw [topWindowAt_eq_none h]
    intro b
    rw [List.find?_eq_none] at hlast
    rw [Bool.eq_false_iff]
    intro hshow
    have hvis : (d.wins b).visible = true := (Bool.and_eq_true_iff.mp hshow).1
    exact hlast b (List.mem_reverse.mpr ((mem_drawOrder h).mpr hvis)) hshow
  | some app =>
    symm
    rw [topWindowAt_eq_some_iff h]
    obtain ⟨hshow, above, below, hsplit, hnone⟩ := List.find?_eq_some_iff_append.mp hlast
    refine ⟨hshow, fun b hb => ?_⟩
    have hvis : (d.wins b).visible = true := (Bool.and_eq_true_iff.mp hb).1
    have hmem : b ∈ above ++ app :: below :=
      hsplit ▸ List.mem_reverse.mpr ((mem_drawOrder h).mpr hvis)
    have hsorted := List.pairwise_reverse.mpr (drawOrder_sorted d)
    rw [hsplit, List.pairwise_append] at hsorted
    rcases List.mem_append.mp hmem with hmem | hmem
    · have hfalse := hnone b hmem
      rw [hb] at hfalse
      simp at hfalse
    · rcases List.mem_cons.mp hmem with rfl | hmem
      · exact le_refl _
      · exact (List.pairwise_cons.mp hsorted.2.1).1 b hmem

end

end Orion.Desktop
