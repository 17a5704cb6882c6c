import Orion.Aster.Script

/-!
# The way down a page

Where an item stands is a matter of the orders in front of it alone.  On a line each word is followed by a
blank of the width of a character, and everything else goes back to the edge of a box (`columns`).  How far
down the page goes are the sums of what its breaks and images go down, 24 for a block that begins beside a
text, and of a line for each word that does not fit beside the words in front of it (`drops`).
-/

namespace Orion.Aster

open Orion.Lib

/-! ## Columns -/

/-- The line is filled up to `x`, and there is no room for the word. -/
def NoRoom (look : TextLook) (box : ℤ × ℤ) (text : Span) (x : ℤ) : Prop :=
  x > box.1 ∧ x + wordWidth look text > box.1 + box.2

instance (look : TextLook) (box : ℤ × ℤ) (text : Span) (x : ℤ) : Decidable (NoRoom look box text x) :=
  inferInstanceAs (Decidable (_ ∧ _))

namespace Order

def places : Order → Bool
  | .word _ _ _ _ => true
  | .image _ _ _ _ _ _ _ => true
  | _ => false

def isWord : Order → Bool
  | .word _ _ _ _ => true
  | _ => false

/-- The width of the item. -/
def width : Order → ℤ
  | .word _ look _ text => wordWidth look text
  | .image _ _ w _ _ _ _ => w
  | _ => 0

/-- The height of the item: of a word, the height of a line of its scale. -/
def height : Order → ℤ
  | .word _ look _ _ => lh look.scale
  | .image _ _ _ h _ _ _ => h
  | _ => 0

/-- The address of the item. -/
def href : Order → Span
  | .word _ look _ _ => hrefOf look.link
  | .image _ _ _ _ _ l _ => hrefOf l
  | _ => ⟨0, 0⟩

/-- Where the item begins, if the line is filled up to `x`. -/
def left : Order → ℤ → ℤ
  | .word _ look box text, x => if NoRoom look box text x then box.1 else x
  | .image _ left _ _ _ _ _, _ => left
  | _, x => x

/-- How far the line is filled behind the order. -/
def column : Order → ℤ → ℤ
  | .fresh left, _ => left
  | .down _, x => x
  | .indent _ x', _ => x'
  | .within left, x => max left x
  | .line left _, _ => left
  | .word n look box text, x => left (.word n look box text) x + wordWidth look text + cw look.scale
  | .image _ left _ _ _ _ _, _ => left

/-- How far down an order goes before it places its item, if it places one. -/
def lead : Order → ℤ → ℤ
  | .fresh left, x => if x ≠ left then 24 else 0
  | .down k, _ => k
  | .indent k _, _ => k
  | .within _, _ => 0
  | .line _ k, _ => k
  | .word _ look box text, x => if NoRoom look box text x then lh look.scale else 0
  | .image _ _ _ _ _ _ _, _ => 0

/-- How far down an order goes behind its item. -/
def trail : Order → ℤ
  | .image _ _ _ h _ _ _ => h + 12
  | _ => 0

end Order

/-- How far the line is filled behind the orders. -/
def columns (os : List Order) (x : ℤ) : ℤ := os.foldl (fun x o => o.column x) x

/-- How far down the orders go. -/
def drops : List Order → ℤ → ℤ
  | [], _ => 0
  | o :: os, x => o.lead x + o.trail + drops os (o.column x)

theorem columns_cons (o : Order) (os : List Order) (x : ℤ) : columns (o :: os) x = columns os (o.column x) := rfl

theorem columns_append (os os' : List Order) (x : ℤ) : columns (os ++ os') x = columns os' (columns os x) :=
  List.foldl_append

theorem drops_append (os os' : List Order) : ∀ x : ℤ,
    drops (os ++ os') x = drops os x + drops os' (columns os x) := by
  induction os with
  | nil => exact fun x => (zero_add _).symm
  | cons o os ih =>
    intro x
    rw [List.cons_append, drops, drops, ih, ← add_assoc]
    rfl

/-! ## The machine -/

theorem wrap_eq (look : TextLook) (box : ℤ × ℤ) (text : Span) (p : Pen) :
    p.wrap look box (wordWidth look text) =
      ⟨if NoRoom look box text p.x then box.1 else p.x,
        p.y + if NoRoom look box text p.x then lh look.scale else 0⟩ := by
  by_cases hroom : NoRoom look box text p.x
  · rw [if_pos hroom, if_pos hroom]
    exact if_pos hroom
  · rw [if_neg hroom, if_neg hroom, add_zero]
    exact if_neg hroom

/-- **What the machine does to its position.** -/
theorem step_eq (o : Order) (p : Pen) : o.step p = ⟨o.column p.x, p.y + (o.lead p.x + o.trail)⟩ := by
  cases o with
  | fresh left =>
    show (if p.x ≠ left then Pen.mk left (p.y + 24) else p) =
      ⟨left, p.y + ((if p.x ≠ left then 24 else 0) + 0)⟩
    split
    · rfl
    · next hsame =>
      rw [← not_ne_iff.mp hsame, add_zero, add_zero]
  | «within» left =>
    show (if p.x < left then Pen.mk left p.y else p) = ⟨max left p.x, p.y + (0 + 0)⟩
    rw [add_zero, add_zero]
    split
    · next hlt => rw [max_eq_left hlt.le]
    · next hge => rw [max_eq_right (not_lt.mp hge)]
  | word n look box text =>
    show Pen.mk ((p.wrap look box (wordWidth look text)).x + wordWidth look text + cw look.scale)
      (p.wrap look box (wordWidth look text)).y = _
    rw [wrap_eq]
    exact congrArg (Pen.mk _) (congrArg (p.y + ·) (add_zero _).symm)
  | down k => exact congrArg (Pen.mk p.x) (congrArg (p.y + ·) (add_zero k).symm)
  | indent k x => exact congrArg (Pen.mk x) (congrArg (p.y + ·) (add_zero k).symm)
  | line left k => exact congrArg (Pen.mk left) (congrArg (p.y + ·) (add_zero k).symm)
  | image n left w h text l src => exact congrArg (Pen.mk left) (congrArg (p.y + ·) (zero_add (h + 12)).symm)

theorem run_eq (os : List Order) : ∀ p : Pen, plotter.run os p = ⟨columns os p.x, p.y + drops os p.x⟩ := by
  induction os with
  | nil => exact fun p => congrArg (Pen.mk p.x) (add_zero p.y).symm
  | cons o os ih =>
    intro p
    rw [Mealy.run_cons, ih]
    show Pen.mk (columns os (o.step p).x) ((o.step p).y + drops os (o.step p).x) = _
    rw [step_eq, drops]
    exact congrArg (Pen.mk _) (add_assoc _ _ _)

/-- The place and the size of an item. -/
structure Places (o : Order) (p : Pen) (i : PaintItem) : Prop where
  x : i.x = o.left p.x
  y : i.y = p.y + o.lead p.x
  w : i.w = o.width
  h : i.h = o.height
  href : i.href = o.href

theorem out_places {o : Order} {p : Pen} {i : PaintItem} (hi : i ∈ o.out p) : Places o p i := by
  cases o with
  | word n look box text =>
    obtain rfl := List.mem_singleton.mp hi
    rw [wrap_eq]
    exact ⟨rfl, rfl, rfl, rfl, rfl⟩
  | image n left w h text l src =>
    obtain rfl := List.mem_singleton.mp hi
    exact ⟨rfl, (add_zero p.y).symm, rfl, rfl, rfl⟩
  | _ => cases hi

theorem length_out (o : Order) (p : Pen) : (o.out p).length = if o.places then 1 else 0 := by
  cases o <;> rfl

theorem length_outputs (os : List Order) : ∀ p : Pen,
    (plotter.outputs os p).length = os.countP Order.places := by
  induction os with
  | nil => exact fun _ => rfl
  | cons o os ih =>
    intro p
    rw [Mealy.outputs_cons, List.length_append, ih, List.countP_cons, add_comm]
    exact congrArg _ (length_out o p)

theorem out_le_one (o : Order) (p : Pen) : (plotter.out o p).length ≤ 1 := by
  rw [show (plotter.out o p).length = _ from length_out o p]
  split <;> decide

theorem exists_out {o : Order} (h : o.places = true) (p : Pen) : ∃ i, i ∈ o.out p := by
  rw [← List.length_pos_iff_exists_mem, length_out, if_pos h]
  exact Nat.zero_lt_one

theorem places_of_mem_out {o : Order} {p : Pen} {i : PaintItem} (hi : i ∈ o.out p) : o.places = true := by
  by_contra hnot
  have hpos := List.length_pos_of_mem hi
  rw [length_out, if_neg hnot] at hpos
  omega

/-- The position behind the first orders of a page. -/
theorem run_page (os : List Order) : plotter.run os ⟨0, 0⟩ = ⟨columns os 0, drops os 0⟩ := by
  rw [run_eq, zero_add]

/-! ## The items that are shown -/

section

variable (d : Document) (width : ℤ)

/-- An order of the page between `os₁` and `os₂`, whose item is shown. -/
structure ShownAt (os₁ : List Order) (o : Order) (os₂ : List Order) : Prop where
  script : layoutScript d width = os₁ ++ o :: os₂
  places : o.places = true
  room : (os₁ ++ [o]).countP Order.places ≤ asterMaxPaint

/-- Two orders of the page, the first one behind `os₁` and with `os₂` in front of the second one, whose items
are shown. -/
structure ShownBoth (os₁ : List Order) (o : Order) (os₂ : List Order) (o' : Order) : Prop where
  script : ∃ os₃, layoutScript d width = os₁ ++ o :: (os₂ ++ o' :: os₃)
  places : o.places = true ∧ o'.places = true
  room : (os₁ ++ o :: (os₂ ++ [o'])).countP Order.places ≤ asterMaxPaint

end

section

variable {d : Document} {width : ℤ}

/-- The items that are shown, and the positions they are placed from. -/
theorem forall_shown_iff {R : PaintItem → Prop} : (∀ i ∈ (drawn d width).take asterMaxPaint, R i) ↔
    ∀ os₁ o os₂, ShownAt d width os₁ o os₂ → ∀ i ∈ o.out ⟨columns os₁ 0, drops os₁ 0⟩, R i := by
  constructor
  · intro hall os₁ o os₂ hshown i hi
    refine hall i ((Mealy.mem_take_outputs out_le_one).mpr ⟨os₁, o, os₂, hshown.script, ?_, ?_⟩)
    · rw [length_outputs]
      exact hshown.room
    · rw [run_page]
      exact hi
  · intro hall i hi
    obtain ⟨os₁, o, os₂, hscript, hroom, hout⟩ := (Mealy.mem_take_outputs out_le_one).mp hi
    rw [length_outputs] at hroom
    rw [run_page] at hout
    exact hall os₁ o os₂ ⟨hscript, places_of_mem_out hout, hroom⟩ i hout

theorem pairwise_shown_iff {R : PaintItem → PaintItem → Prop} :
    ((drawn d width).take asterMaxPaint).Pairwise R ↔
    ∀ os₁ o os₂ o', ShownBoth d width os₁ o os₂ o' →
      let p : Pen := ⟨columns os₁ 0, drops os₁ 0⟩
      ∀ i ∈ o.out p, ∀ j ∈ o'.out (plotter.run os₂ (o.step p)), R i j := by
  rw [drawn, Mealy.pairwise_take_outputs out_le_one]
  constructor
  · intro hall os₁ o os₂ o' hshown p i hi j hj
    obtain ⟨os₃, hscript⟩ := hshown.script
    refine hall os₁ o os₂ o' os₃ hscript ?_ i ?_ j ?_
    · rw [length_outputs]
      exact hshown.room
    · rw [run_page]
      exact hi
    · rw [run_page]
      exact hj
  · intro hall os₁ o os₂ o' os₃ hscript hroom i hi j hj
    rw [length_outputs] at hroom
    rw [run_page] at hi hj
    exact hall os₁ o os₂ o' ⟨⟨os₃, hscript⟩, ⟨places_of_mem_out hi, places_of_mem_out hj⟩, hroom⟩ i hi j hj

end

end Orion.Aster
