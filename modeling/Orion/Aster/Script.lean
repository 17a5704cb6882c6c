import Orion.Aster.Walk
import Orion.Lib.Mealy
import Orion.Lib.Words

/-!
# The script of a layout

What `walk` does with its cursor depends on the document, but not on what it placed so far.  So the walk is
the run of a list of orders (`script`), which is read off the tree, by a machine that knows a position only
(`plotter`), and that puts the items out with all digits of their coordinates.  `layout_paint` is the
connection: the paint list are the first 512 of the items, cut to 16 bits, and the height of the document
is 32 below the last position.
-/

namespace Orion.Aster

open Orion.Lib

/-! ## The machine -/

/-- The position of the walk. -/
structure Pen where
  x : ℤ
  y : ℤ
  deriving Repr, DecidableEq

/-- What the walk does, one thing at a time.  Boxes are a left edge and a width. -/
inductive Order where
  /-- a new line, unless this one is empty -/
  | fresh (left : ℤ)
  | down (k : ℤ)
  | indent (k x : ℤ)
  /-- not left of the box -/
  | within (left : ℤ)
  | line (left k : ℤ)
  | word (n : ℕ) (look : TextLook) (box : ℤ × ℤ) (text : Span)
  | image (n : ℕ) (left w h : ℤ) (text : Span) (link : Option Node) (src : Span)

/-- The width of a word. -/
def wordWidth (look : TextLook) (text : Span) : ℤ := text.len * cw look.scale

def Pen.wrap (look : TextLook) (box : ℤ × ℤ) (ww : ℤ) (p : Pen) : Pen :=
  if p.x > box.1 ∧ p.x + ww > box.1 + box.2 then ⟨box.1, p.y + lh look.scale⟩ else p

def Order.step : Order → Pen → Pen
  | .fresh left, p => if p.x ≠ left then ⟨left, p.y + 24⟩ else p
  | .down k, p => ⟨p.x, p.y + k⟩
  | .indent k x, p => ⟨x, p.y + k⟩
  | .within left, p => if p.x < left then ⟨left, p.y⟩ else p
  | .line left k, p => ⟨left, p.y + k⟩
  | .word _ look box text, p =>
    let p := p.wrap look box (wordWidth look text)
    ⟨p.x + wordWidth look text + cw look.scale, p.y⟩
  | .image _ left _ h _ _ _, p => ⟨left, p.y + (h + 12)⟩

/-- The link of an item. -/
def hrefOf (l : Option Node) : Span :=
  match l with
  | some q => q.href.toSpan
  | none => ⟨0, 0⟩

/-- A word at a position. -/
def wordItem (look : TextLook) (text : Span) (p : Pen) : PaintItem :=
  ⟨p.x, p.y, wordWidth look text, lh look.scale, look.scale, look.flags, look.color, text,
    hrefOf look.link, ⟨0, 0⟩⟩

def imageItem (left w h : ℤ) (text : Span) (l : Option Node) (src : Span) (p : Pen) : PaintItem :=
  ⟨left, p.y, w, h, 1, asterPaintImage, 0xDDE6EE, text, hrefOf l, src⟩

/-- The item of an order, with the coordinates as they are computed. -/
def Order.out : Order → Pen → List PaintItem
  | .word _ look box text, p => [wordItem look text (p.wrap look box (wordWidth look text))]
  | .image _ left w h text l src, p => [imageItem left w h text l src p]
  | _, _ => []

def plotter : Mealy Pen Order PaintItem := ⟨Order.step, Order.out⟩

/-- An item with its coordinates cut to 16 bits. -/
def PaintItem.stored (i : PaintItem) : PaintItem :=
  { i with x := int16 i.x, y := int16 i.y, w := int16 i.w, h := int16 i.h }

/-! ## The script -/

/-- The words of a text node. -/
def wordOrders (n : ℕ) (look : TextLook) (box : ℤ × ℤ) (off : ℕ) (s : List UInt8) : List Order :=
  (wordSpans (· = 32) s).map fun w => .word n look box ⟨u16 (off + w.1), w.2⟩

def textOrders (d : Document) (n : ℕ) (q : Node) (box : ℤ × ℤ) : List Order :=
  .within box.1 :: wordOrders n (textLook d n) box q.text.off (d.bytes q.text.toSpan)

def imageOrder (d : Document) (n : ℕ) (q : Node) (box : ℤ × ℤ) : Order :=
  let w : ℤ := if q.widthHint ≠ 0 then q.widthHint else if box.2 > 320 then 320 else box.2
  let h : ℤ := if q.heightHint ≠ 0 then q.heightHint else 180
  .image n box.1 (if w > box.2 then box.2 else w) (if h > 360 then 360 else h) q.text.toSpan (link d n)
    q.src.toSpan

/-- The orders in front of the children. -/
def before (d : Document) (n : ℕ) (q : Node) (box : ℤ × ℤ) : List Order :=
  (if block q.tag then [.fresh box.1] else []) ++
  (if spaced q.tag then
    [if q.tag = .li ∨ q.tag = .blockquote then .indent 8 (innerBox q.tag box.1 box.2).1 else .down 8]
    else []) ++
  (if q.type = .text then textOrders d n q box else []) ++
  (if q.tag = .br then [.line box.1 24] else []) ++
  (if q.tag = .hr then [.line box.1 12] else []) ++
  (if q.tag = .img then [imageOrder d n q box] else [])

/-- The orders behind the children. -/
def after (q : Node) (box : ℤ × ℤ) : List Order :=
  if block q.tag ∧ q.type = .element then
    [.line box.1 (if q.tag = .h1 then 20 else if q.tag = .h2 then 14 else if q.tag = .h3 then 10 else 8)]
  else []

def script (d : Document) : ℕ → ℕ → ℤ × ℤ → List Order
  | 0, _, _ => []
  | fuel + 1, n, box =>
    match d.nodes[n]? with
    | none => []
    | some q =>
      if hidden d n then []
      else
        before d n q box ++
          (children d n).flatMap (fun c => script d fuel c (innerBox q.tag box.1 box.2)) ++ after q box

/-- The box of the page. -/
def pageBox (width : ℤ) : ℤ × ℤ := (0, if width < 120 then 120 else width)

def layoutScript (d : Document) (width : ℤ) : List Order := script d d.nodes.length 0 (pageBox width)

/-- The items of a layout, all of them, with the coordinates as they are computed. -/
def drawn (d : Document) (width : ℤ) : List PaintItem := plotter.outputs (layoutScript d width) ⟨0, 0⟩

/-- The position behind the layout. -/
def layoutEnd (d : Document) (width : ℤ) : Pen := plotter.run (layoutScript d width) ⟨0, 0⟩

/-! ## The walk runs the script -/

def Cursor.pen (cur : Cursor) : Pen := ⟨cur.cx, cur.cy⟩

theorem take_append_take {α : Type*} (l y : List α) (n : ℕ) : (l.take n ++ y).take n = (l ++ y).take n := by
  rw [List.take_append, List.take_append, List.take_take, min_self, List.length_take,
    show n - min n l.length = n - l.length by omega]

/-- From `a` to `b` the walk runs the orders: it moves as they say, and what they put out is cut to 16 bits
and goes to the paint list as long as there is room.  Nothing else of the document changes. -/
structure Draws (os : List Order) (a b : Cursor) : Prop where
  doc : ∃ ps, b.doc = a.doc.withPaint ps
  pen : b.pen = plotter.run os a.pen
  paint : a.doc.paint.length ≤ asterMaxPaint → b.doc.paint =
    (a.doc.paint ++ (plotter.outputs os a.pen).map PaintItem.stored).take asterMaxPaint

theorem Draws.trans {os os' : List Order} {a b c : Cursor} (hab : Draws os a b) (hbc : Draws os' b c) :
    Draws (os ++ os') a c where
  doc := by
    obtain ⟨ps, hb⟩ := hab.doc
    obtain ⟨ps', hc⟩ := hbc.doc
    refine ⟨ps', ?_⟩
    rw [hc, hb]
    rfl
  pen := by rw [hbc.pen, hab.pen, Mealy.run_append]
  paint := by
    intro ha
    have hb := hab.paint ha
    have hroom : b.doc.paint.length ≤ asterMaxPaint := by
      rw [hb]
      exact List.length_take_le _ _
    rw [hbc.paint hroom, hb, hab.pen, Mealy.outputs_append, List.map_append, ← List.append_assoc]
    exact take_append_take _ _ _

theorem Draws.refl (a : Cursor) : Draws [] a a where
  doc := ⟨a.doc.paint, rfl⟩
  pen := rfl
  paint := fun ha => by rw [Mealy.outputs_nil, List.map_nil, List.append_nil, List.take_of_length_le ha]

/-- An order that moves the cursor. -/
theorem Draws.move {o : Order} {a b : Cursor} (hout : o.out a.pen = []) (hdoc : b.doc = a.doc)
    (hpen : b.pen = o.step a.pen) : Draws [o] a b where
  doc := ⟨a.doc.paint, hdoc⟩
  pen := hpen
  paint := by
    intro ha
    show b.doc.paint = (a.doc.paint ++ (o.out a.pen ++ []).map PaintItem.stored).take asterMaxPaint
    rw [hout, List.append_nil, List.map_nil, List.append_nil, List.take_of_length_le ha, hdoc]

/-- An order that places an item. -/
theorem Draws.place {o : Order} {a b : Cursor} {i : PaintItem} (hout : o.out a.pen = [i])
    (hdoc : b.doc = if a.doc.paint.length ≥ asterMaxPaint then a.doc
      else { a.doc with paint := a.doc.paint ++ [i.stored] })
    (hpen : b.pen = o.step a.pen) : Draws [o] a b where
  doc := by
    rw [hdoc]
    split
    · exact ⟨a.doc.paint, rfl⟩
    · exact ⟨_, rfl⟩
  pen := hpen
  paint := by
    intro ha
    show b.doc.paint = (a.doc.paint ++ (o.out a.pen ++ []).map PaintItem.stored).take asterMaxPaint
    rw [hout, List.append_nil, List.map_singleton, hdoc]
    split
    · next hfull => rw [List.take_append_of_le_length hfull, List.take_of_length_le ha]
    · next hroom =>
      exact (List.take_of_length_le (by rw [List.length_append, List.length_singleton]; omega)).symm

theorem Draws.ite {c : Prop} [Decidable c] {os : List Order} {a b : Cursor} (h : c → Draws os a b) :
    Draws (if c then os else []) a (if c then b else a) := by
  split
  · next hc => exact h hc
  · exact Draws.refl a

theorem wrapLine_pen (look : TextLook) (box : ℤ × ℤ) (ww : ℤ) (cur : Cursor) :
    (wrapLine look box.1 box.2 ww cur).pen = cur.pen.wrap look box ww := by
  rw [wrapLine, Pen.wrap]
  exact apply_ite Cursor.pen ..

theorem wrapLine_doc (look : TextLook) (left width ww : ℤ) (cur : Cursor) :
    (wrapLine look left width ww cur).doc = cur.doc := by
  rw [wrapLine]
  split <;> rfl

/-- One turn of the loop over the words. -/
theorem word_draws (n : ℕ) (look : TextLook) (box : ℤ × ℤ) (text : Span) (cur : Cursor) :
    let wrapped := wrapLine look box.1 box.2 (wordWidth look text) cur
    Draws [.word n look box text] cur
      { wrapped with
        doc := emit wrapped.doc wrapped.cx wrapped.cy (wordWidth look text) (lh look.scale) look.scale
          look.flags look.color text look.link ⟨0, 0⟩
        cx := wrapped.cx + wordWidth look text + cw look.scale } := by
  intro wrapped
  have hpen : wrapped.pen = cur.pen.wrap look box (wordWidth look text) := wrapLine_pen look box _ cur
  have hdoc : wrapped.doc = cur.doc := wrapLine_doc look box.1 box.2 _ cur
  refine Draws.place (i := wordItem look text wrapped.pen) ?_ ?_ ?_
  · rw [hpen]
    rfl
  · show emit wrapped.doc _ _ _ _ _ _ _ _ _ _ = _
    rw [hdoc]
    rfl
  · show Pen.mk _ _ = Pen.mk _ _
    rw [← hpen]
    rfl

theorem wordLoop_draws (n : ℕ) (look : TextLook) (off : ℕ) (box : ℤ × ℤ) (fuel : ℕ) :
    ∀ (p : ℕ) (s : List UInt8) (cur : Cursor), s.length ≤ fuel →
      Draws ((wordSpans (· = 32) s).map fun w => .word n look box ⟨u16 (off + (p + w.1)), w.2⟩) cur
        (wordLoop look off box.1 box.2 fuel p s cur) := by
  have hnot : (fun x : UInt8 => !decide (x = 32)) = fun x => decide (x ≠ 32) := by
    funext x
    rw [decide_not]
  induction fuel with
  | zero =>
    intro p s cur hs
    obtain rfl := List.length_eq_zero_iff.mp (Nat.le_zero.mp hs)
    exact Draws.refl cur
  | succ fuel ih =>
    intro p s cur hs
    have hle := (List.dropWhile_sublist (l := s) (· = 32)).length_le
    have hstop := List.head?_dropWhile_not (· = (32 : UInt8)) s
    rw [wordLoop, wordSpans_dropWhile, List.map_map]
    cases hrest : s.dropWhile (· = 32) with
    | nil => exact Draws.refl cur
    | cons c r =>
      rw [hrest] at hle hstop
      have hc : decide (c = 32) = false := hstop
      have hlt : ((c :: r).dropWhile (· ≠ 32)).length ≤ fuel := by
        rw [List.dropWhile_cons_of_pos (by simpa using hc)]
        have hr := (List.dropWhile_sublist (l := r) (· ≠ 32)).length_le
        rw [List.length_cons] at hle
        omega
      rw [wordSpans_cons (p := fun x : UInt8 => decide (x = 32)) hc, hnot, List.map_cons, List.map_map,
        if_neg (List.cons_ne_nil c r)]
      generalize (s.takeWhile (· = 32)).length = k
      generalize ((c :: r).takeWhile (· ≠ 32)).length = len
      have hword := word_draws n look box ⟨u16 (off + (p + k)), len⟩ cur
      have hall := hword.trans (ih (p + k + len) _ _ hlt)
      have horders : (wordSpans (· = 32) ((c :: r).dropWhile (· ≠ 32))).map (fun w =>
          Order.word n look box ⟨u16 (off + (p + k + len + w.1)), w.2⟩) =
          (wordSpans (· = 32) ((c :: r).dropWhile (· ≠ 32))).map (fun w =>
          Order.word n look box ⟨u16 (off + (p + (w.1 + len + k))), w.2⟩) := by
        refine List.map_congr_left fun w _ => ?_
        rw [show p + k + len + w.1 = p + (w.1 + len + k) by omega]
      rw [horders] at hall
      simp only [Function.comp_apply, Nat.zero_add]
      exact hall

theorem textnode_draws (n : ℕ) (q : Node) (box : ℤ × ℤ) (cur : Cursor) :
    Draws (textOrders cur.doc n q box) cur (textnode n q box.1 box.2 cur) := by
  have hmove : Draws [.within box.1] cur (if cur.cx < box.1 then { cur with cx := box.1 } else cur) := by
    refine Draws.move rfl ?_ ?_
    · split <;> rfl
    · exact apply_ite Cursor.pen ..
  have hwords := wordLoop_draws n (textLook cur.doc n) q.text.off box _ 0 (cur.doc.bytes q.text.toSpan)
    (if cur.cx < box.1 then { cur with cx := box.1 } else cur) le_rfl
  simp only [Nat.zero_add] at hwords
  exact hmove.trans hwords

theorem placeImage_draws (n : ℕ) (q : Node) (box : ℤ × ℤ) (cur : Cursor) :
    Draws [imageOrder cur.doc n q box] cur (placeImage n q box.1 box.2 cur) :=
  Draws.place rfl rfl rfl

theorem walkBefore_draws (n : ℕ) (q : Node) (box : ℤ × ℤ) (cur : Cursor) :
    Draws (before cur.doc n q box) cur (walkBefore n q box.1 box.2 cur) := by
  unfold walkBefore before
  simp only
  have h1 : Draws (if block q.tag then [.fresh box.1] else []) cur
      (if block q.tag = true ∧ cur.cx ≠ box.1 then { cur with cx := box.1, cy := cur.cy + 24 } else cur) := by
    by_cases hb : block q.tag = true
    · rw [if_pos hb]
      refine Draws.move rfl ?_ ?_
      · split <;> rfl
      · show _ = if cur.cx ≠ box.1 then _ else _
        by_cases hx : cur.cx ≠ box.1
        · rw [if_pos hx, if_pos ⟨hb, hx⟩]
          rfl
        · rw [if_neg hx, if_neg fun h => hx h.2]
    · rw [if_neg hb, if_neg fun h => hb h.1]
      exact Draws.refl cur
  generalize (if block q.tag = true ∧ cur.cx ≠ box.1 then _ else cur : Cursor) = c1 at h1 ⊢
  -- a list item and a quotation have space above
  have h2 : ∀ c2, c2 = (if spaced q.tag = true then { c1 with cy := c1.cy + 8 } else c1) →
      Draws (if spaced q.tag then
        [if q.tag = .li ∨ q.tag = .blockquote then .indent 8 (innerBox q.tag box.1 box.2).1 else .down 8]
        else []) c1
        (if q.tag = .li ∨ q.tag = .blockquote then
          { c2 with cx := (innerBox q.tag box.1 box.2).1 } else c2) := by
    intro c2 hc2
    by_cases hin : q.tag = .li ∨ q.tag = .blockquote
    · have hspaced : spaced q.tag = true := by
        rcases hin with htag | htag <;> rw [htag] <;> rfl
      rw [if_pos hin, if_pos hspaced, if_pos hin, hc2, if_pos hspaced]
      exact Draws.move rfl rfl rfl
    · rw [if_neg hin, if_neg hin, hc2]
      exact Draws.ite fun _ => Draws.move rfl rfl rfl
  have h3 := h1.trans (h2 _ rfl)
  generalize (if spaced q.tag = true then _ else c1 : Cursor) = c2 at h3 ⊢
  generalize (if q.tag = .li ∨ q.tag = .blockquote then _ else c2 : Cursor) = c3 at h3 ⊢
  obtain ⟨ps, hdoc3⟩ := h3.doc
  have htext : textOrders cur.doc n q box = textOrders c3.doc n q box := by
    rw [hdoc3]
    rfl
  rw [htext]
  have h4 := h3.trans (Draws.ite (c := q.type = .text) fun _ => textnode_draws n q box c3)
  generalize (if q.type = .text then textnode n q box.1 box.2 c3 else c3 : Cursor) = c4 at h4 ⊢
  have hbr : Draws (if q.tag = .br then [.line box.1 24] else []) c4
      (if q.tag = .br then { c4 with cx := box.1, cy := c4.cy + 24 } else c4) :=
    Draws.ite fun _ => Draws.move rfl rfl rfl
  have h5 := h4.trans hbr
  generalize (if q.tag = .br then _ else c4 : Cursor) = c5 at h5 ⊢
  have hhr : Draws (if q.tag = .hr then [.line box.1 12] else []) c5
      (if q.tag = .hr then { c5 with cx := box.1, cy := c5.cy + 12 } else c5) :=
    Draws.ite fun _ => Draws.move rfl rfl rfl
  have h6 := h5.trans hhr
  generalize (if q.tag = .hr then _ else c5 : Cursor) = c6 at h6 ⊢
  obtain ⟨ps', hdoc6⟩ := h6.doc
  have himage : imageOrder cur.doc n q box = imageOrder c6.doc n q box := by
    rw [hdoc6]
    rfl
  rw [himage]
  exact h6.trans (Draws.ite fun _ => placeImage_draws n q box c6)

theorem walkAfter_draws (q : Node) (box : ℤ × ℤ) (cur : Cursor) :
    Draws (after q box) cur (walkAfter q box.1 cur) :=
  Draws.ite fun _ => Draws.move rfl rfl rfl

theorem script_withPaint (d : Document) (ps : List PaintItem) : ∀ fuel : ℕ,
    script (d.withPaint ps) fuel = script d fuel := by
  intro fuel
  induction fuel with
  | zero => rfl
  | succ fuel ih =>
    funext n box
    simp only [script, hidden_withPaint, children_withPaint, ih]
    rfl

/-- **The walk runs its script.** -/
theorem walk_draws (fuel : ℕ) : ∀ (n : ℕ) (box : ℤ × ℤ) (cur : Cursor),
    Draws (script cur.doc fuel n box) cur (walk fuel n box.1 box.2 cur) := by
  induction fuel with
  | zero => exact fun n box cur => Draws.refl cur
  | succ fuel ih =>
    intro n box cur
    -- the children, one after the other
    have hlist : ∀ (cs : List ℕ) (b : ℤ × ℤ) (cur' : Cursor),
        Draws (cs.flatMap fun c => script cur'.doc fuel c b) cur'
          (cs.foldl (fun cur c => walk fuel c b.1 b.2 cur) cur') := by
      intro cs b
      induction cs with
      | nil => exact fun cur' => Draws.refl cur'
      | cons c cs ihcs =>
        intro cur'
        have hhead := ih c b cur'
        obtain ⟨ps, hdoc⟩ := hhead.doc
        have htail := ihcs (walk fuel c b.1 b.2 cur')
        rw [hdoc, script_withPaint] at htail
        rw [List.flatMap_cons, List.foldl_cons]
        exact hhead.trans htail
    rw [walk, script]
    cases hq : cur.doc.nodes[n]? with
    | none => exact Draws.refl cur
    | some q =>
      simp only
      have hvisit : ∀ {os : List Order} {b : Cursor},
          Draws os { cur with visited := cur.visited ++ [n] } b → Draws os cur b :=
        fun h => ⟨h.doc, h.pen, h.paint⟩
      split
      · exact hvisit (Draws.refl _)
      · have hbefore := walkBefore_draws n q box { cur with visited := cur.visited ++ [n] }
        obtain ⟨ps, hdoc⟩ := hbefore.doc
        have hkids := hlist (children cur.doc n) (innerBox q.tag box.1 box.2)
          (walkBefore n q box.1 box.2 { cur with visited := cur.visited ++ [n] })
        rw [hdoc, script_withPaint] at hkids
        exact hvisit ((hbefore.trans hkids).trans (walkAfter_draws q box _))

/-- **The paint list and the height of a layout.** -/
theorem layout_paint (d : Document) (width : ℤ) :
    (asterLayout d width).paint = ((drawn d width).take asterMaxPaint).map PaintItem.stored ∧
      asterDocumentHeight (asterLayout d width) = (layoutEnd d width).y + 32 := by
  have h := walk_draws d.nodes.length 0 (pageBox width) ⟨d.withPaint [], 0, 0, []⟩
  have hscript : script (d.withPaint []) d.nodes.length 0 (pageBox width) = layoutScript d width := by
    rw [script_withPaint]
    rfl
  rw [hscript] at h
  constructor
  · have hpaint := h.paint (Nat.zero_le _)
    rw [List.map_take]
    exact hpaint
  · have hpen := congrArg Pen.y h.pen
    exact congrArg (· + 32) hpen

/-- A layout changes no text. -/
theorem asterLayout_bytes (d : Document) (width : ℤ) : (asterLayout d width).bytes = d.bytes := by
  obtain ⟨ps, h⟩ := (walk_draws d.nodes.length 0 (pageBox width) ⟨d.withPaint [], 0, 0, []⟩).doc
  have hdoc : (layoutWalk d width).doc = d.withPaint ps := h
  show (layoutWalk d width).doc.bytes = d.bytes
  rw [hdoc]
  rfl

end Orion.Aster
