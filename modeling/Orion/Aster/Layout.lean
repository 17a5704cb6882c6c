import Orion.Aster.Parse

/-!
# Layout and painting (`aster_layout`, `aster_paint`, `aster_link_at`)

The cascade, the walk over the tree that places words and images, and the two readers of the paint
list.  Coordinates are integers and are cut to 16 bits where the source stores them in `int16_t`
fields.  A walk over parents, children or siblings has the number of nodes as its fuel.  The cursor
of the walk keeps the list of the nodes that it was called for; nothing reads it.
-/

namespace Orion.Aster

/-! ## The tree -/

/-- `for(;n>=0;n=d->nodes[n].parent)`. -/
def parentChain (nodes : List Node) : ℕ → Option ℕ → List ℕ
  | 0, _ => []
  | _ + 1, none => []
  | fuel + 1, some n =>
    match nodes[n]? with
    | none => []
    | some q => n :: parentChain nodes fuel q.parent

/-- `for(c=first;c>=0;c=d->nodes[c].next_sibling)`. -/
def siblings (nodes : List Node) : ℕ → Option ℕ → List ℕ
  | 0, _ => []
  | _ + 1, none => []
  | fuel + 1, some c =>
    match nodes[c]? with
    | none => []
    | some q => c :: siblings nodes fuel q.nextSibling

/-- A node and its ancestors. -/
def ancestors (d : Document) (n : ℕ) : List ℕ := parentChain d.nodes d.nodes.length (some n)

def children (d : Document) (n : ℕ) : List ℕ :=
  match d.nodes[n]? with
  | none => []
  | some q => siblings d.nodes d.nodes.length q.firstChild

def inh (d : Document) (n : ℕ) (t : Tag) : Bool := (ancestors d n).any fun i => tagOf d i = t

/-- The nearest link around a node. -/
def link (d : Document) (n : ℕ) : Option Node :=
  (ancestors d n).findSome? fun i =>
    match d.nodes[i]? with
    | none => none
    | some q => if q.tag = .a ∧ q.href.len ≠ 0 then some q else none

/-! ## The cascade -/

def teq (d : Document) (a b : Span) : Bool :=
  a.len = b.len ∧ a.off + a.len ≤ asterTextCap ∧ b.off + b.len ≤ asterTextCap ∧ d.bytes a = d.bytes b

/-- The loop of `hasclass` over the words of a class attribute. -/
def hasclassLoop (selector : List UInt8) : ℕ → List UInt8 → Bool
  | 0, _ => false
  | fuel + 1, s =>
    if s = [] then false
    else
      let s := s.dropWhile sp
      if s.takeWhile (!sp ·) = selector then true else hasclassLoop selector fuel (s.dropWhile (!sp ·))

def hasclass (d : Document) (n : Node) (r : CssRule) : Bool :=
  if n.cls.len = 0 ∨ n.cls.off + n.cls.len > asterTextCap then false
  else hasclassLoop (d.bytes r.selector.toSpan) n.cls.len (d.bytes n.cls.toSpan)

def matchesRule (d : Document) (r : CssRule) (n : Node) : Bool :=
  if r.tag ≠ none ∧ r.tag ≠ some n.tag then false
  else
    match r.kind with
    | .any | .tag => true
    | .cls | .tagCls => hasclass d n r
    | .id | .tagId => n.id.len ≠ 0 && teq d n.id.toSpan r.selector.toSpan

def specof (r : CssRule) : ℕ :=
  match r.kind with
  | .id => 100
  | .tagId => 101
  | .cls => 10
  | .tagCls => 11
  | .tag => 1
  | .any => 0

/-- The local variables of `rules`. -/
structure Cascade where
  st : Style
  cs : ℕ
  ss : ℕ
  co : ℤ
  so : ℤ

def ruleStep (d : Document) (n : Node) (c : Cascade) (r : CssRule) (i : ℕ) : Cascade :=
  if matchesRule d r n = false then c
  else
    let spc := specof r
    let c := { c with st := { c.st with flags := c.st.flags ||| r.style.flags } }
    let c := if r.style.scale ≠ 0 ∧ (spc > c.ss ∨ (spc = c.ss ∧ (i : ℤ) ≥ c.so)) then
      { c with st := { c.st with scale := r.style.scale }, ss := spc, so := i } else c
    if r.style.colorSet ∧ (spc > c.cs ∨ (spc = c.cs ∧ (i : ℤ) ≥ c.co)) then
      { c with st := { c.st with color := r.style.color, colorSet := true }, cs := spc, co := i }
    else c

def rules (d : Document) (n : Node) (st : Style) : Style :=
  (d.css.zipIdx.foldl (fun c r => ruleStep d n c r.1 r.2) ⟨st, 0, 0, -1, -1⟩).st

/-- What the tags around a node give. -/
def baseStyle (d : Document) (n : ℕ) : Style :=
  let st : Style := ⟨0, 1, false, 0x26394B⟩
  let st := if inh d n .h1 then
      { st with scale := 2, flags := st.flags ||| asterStyleBold, color := 0x1D3550, colorSet := true }
    else if inh d n .h2 ∨ inh d n .h3 then { st with flags := st.flags ||| asterStyleBold }
    else st
  let st := if inh d n .strong then { st with flags := st.flags ||| asterStyleBold } else st
  if inh d n .code then { st with color := 0x7B3F57, colorSet := true } else st

/-- One node of the chain: the rules, then the inline style. -/
def resolveStep (d : Document) (st : Style) (i : ℕ) : Style :=
  match d.nodes[i]? with
  | none => st
  | some q =>
    let st := rules d q st
    let st := { st with flags := st.flags ||| q.styleFlags }
    let st := if q.styleScale ≠ 0 then { st with scale := q.styleScale } else st
    if q.styleColor ≠ 0 then { st with color := q.styleColor, colorSet := true } else st

def resolved (d : Document) (n : ℕ) : Style :=
  ((ancestors d n).take 48).reverse.foldl (resolveStep d) (baseStyle d n)

def hidden (d : Document) (n : ℕ) : Bool :=
  if inh d n .head ∨ inh d n .title ∨ inh d n .script ∨ inh d n .style then true
  else (resolved d n).flags &&& asterStyleHidden ≠ 0

/-! ## Placing -/

def asterPaintLink : UInt8 := 1

def asterPaintBold : UInt8 := 2

def asterPaintImage : UInt8 := 4

def asterPaintUnderline : UInt8 := 8

/-- The cursor of the walk. -/
structure Cursor where
  doc : Document
  cx : ℤ
  cy : ℤ
  visited : List ℕ

/-- `(int16_t)x`. -/
def int16 (x : ℤ) : ℤ := x.bmod (2 ^ 16)

def emit (d : Document) (x y w h : ℤ) (scale : ℕ) (flags : UInt8) (col : ℕ) (text : Span)
    (l : Option Node) (src : Span) : Document :=
  if d.paint.length ≥ asterMaxPaint then d
  else
    let href := match l with
      | some q => q.href.toSpan
      | none => ⟨0, 0⟩
    { d with paint := d.paint ++
      [⟨int16 x, int16 y, int16 w, int16 h, scale, flags, col, text, href, src⟩] }

def cw (s : ℕ) : ℤ := if s = 2 then 24 else 11

def lh (s : ℕ) : ℤ := if s = 2 then 52 else 24

/-- How a text node is drawn: scale, flags, colour and link. -/
structure TextLook where
  scale : ℕ
  flags : UInt8
  color : ℕ
  link : Option Node

def textLook (d : Document) (n : ℕ) : TextLook :=
  let st := resolved d n
  let l := link d n
  let fl : UInt8 := if st.flags &&& asterStyleBold ≠ 0 then asterPaintBold else 0
  let fl := if st.flags &&& asterStyleUnderline ≠ 0 then fl ||| asterPaintUnderline else fl
  let fl := if l.isSome then fl ||| asterPaintLink else fl
  ⟨st.scale, fl, if st.colorSet then st.color else if l.isSome then 0x2F74B7 else 0x26394B, l⟩

/-- Start a new line if a word of width `ww` does not fit. -/
def wrapLine (look : TextLook) (left width ww : ℤ) (cur : Cursor) : Cursor :=
  if cur.cx > left ∧ cur.cx + ww > left + width then
    { cur with cx := left, cy := cur.cy + lh look.scale }
  else cur

/-- The loop of `textnode`: `s` are the bytes from position `p` of the text at `off` on. -/
def wordLoop (look : TextLook) (off : ℕ) (left width : ℤ) :
    ℕ → ℕ → List UInt8 → Cursor → Cursor
  | 0, _, _, cur => cur
  | fuel + 1, p, s, cur =>
    let a := p + (s.takeWhile (· = 32)).length
    let s := s.dropWhile (· = 32)
    if s = [] then cur
    else
      let len := (s.takeWhile (· ≠ 32)).length
      let ww : ℤ := len * cw look.scale
      let cur := wrapLine look left width ww cur
      wordLoop look off left width fuel (a + len) (s.dropWhile (· ≠ 32))
        { cur with
          doc := emit cur.doc cur.cx cur.cy ww (lh look.scale) look.scale look.flags look.color
            ⟨u16 (off + a), len⟩ look.link ⟨0, 0⟩
          cx := cur.cx + ww + cw look.scale }

def textnode (n : ℕ) (q : Node) (left width : ℤ) (cur : Cursor) : Cursor :=
  let s := cur.doc.bytes q.text.toSpan
  let look := textLook cur.doc n
  wordLoop look q.text.off left width s.length 0 s (if cur.cx < left then { cur with cx := left } else cur)

/-- The tags with space above. -/
def spaced : Tag → Bool
  | .h1 | .h2 | .h3 | .p | .div | .li | .section | .article | .blockquote => true
  | _ => false

/-- The box of the children. -/
def innerBox (t : Tag) (left width : ℤ) : ℤ × ℤ :=
  match t with
  | .li => (left + 22, if width > 22 then width - 22 else width)
  | .blockquote => (left + 28, if width > 56 then width - 56 else width)
  | _ => (left, width)

def placeImage (n : ℕ) (q : Node) (left width : ℤ) (cur : Cursor) : Cursor :=
  let w : ℤ := if q.widthHint ≠ 0 then q.widthHint else if width > 320 then 320 else width
  let h : ℤ := if q.heightHint ≠ 0 then q.heightHint else 180
  let w := if w > width then width else w
  let h := if h > 360 then 360 else h
  { cur with
    doc := emit cur.doc left cur.cy w h 1 asterPaintImage 0xDDE6EE q.text.toSpan (link cur.doc n)
      q.src.toSpan
    cx := left
    cy := cur.cy + (h + 12) }

/-- `walk` up to its loop over the children. -/
def walkBefore (n : ℕ) (q : Node) (left width : ℤ) (cur : Cursor) : Cursor :=
  let cur := if block q.tag ∧ cur.cx ≠ left then { cur with cx := left, cy := cur.cy + 24 } else cur
  let cur := if spaced q.tag then { cur with cy := cur.cy + 8 } else cur
  let cur := if q.tag = .li ∨ q.tag = .blockquote then
    { cur with cx := (innerBox q.tag left width).1 } else cur
  let cur := if q.type = .text then textnode n q left width cur else cur
  let cur := if q.tag = .br then { cur with cx := left, cy := cur.cy + 24 } else cur
  let cur := if q.tag = .hr then { cur with cx := left, cy := cur.cy + 12 } else cur
  if q.tag = .img then placeImage n q left width cur else cur

/-- `walk` behind its loop over the children. -/
def walkAfter (q : Node) (left : ℤ) (cur : Cursor) : Cursor :=
  if block q.tag ∧ q.type = .element then
    { cur with
      cx := left
      cy := cur.cy + (if q.tag = .h1 then 20 else if q.tag = .h2 then 14 else if q.tag = .h3 then 10
        else 8) }
  else cur

def walk : ℕ → ℕ → ℤ → ℤ → Cursor → Cursor
  | 0, _, _, _, cur => cur
  | fuel + 1, n, left, width, cur =>
    match cur.doc.nodes[n]? with
    | none => cur
    | some q =>
      let cur := { cur with visited := cur.visited ++ [n] }
      if hidden cur.doc n then cur
      else
        let box := innerBox q.tag left width
        walkAfter q left ((children cur.doc n).foldl (fun cur c => walk fuel c box.1 box.2 cur)
          (walkBefore n q left width cur))

/-- The walk of `aster_layout`. -/
def layoutWalk (d : Document) (width : ℤ) : Cursor :=
  walk d.nodes.length 0 0 (if width < 120 then 120 else width) ⟨{ d with paint := [] }, 0, 0, []⟩

def asterLayout (d : Document) (width : ℤ) : Document :=
  let cur := layoutWalk d width
  { cur.doc with documentHeight := cur.cy + 32 }

def asterDocumentHeight (d : Document) : ℤ := d.documentHeight

/-! ## Painting -/

/-- `(uint32_t)x`. -/
def uint32 (x : ℤ) : ℕ := (x % 2 ^ 32).toNat

/-- The calls of the graphics library. -/
inductive Draw where
  | image (x y w h : ℕ) (uri : List UInt8)
  | rect (x y w h color : ℕ)
  | text (x y : ℕ) (s : List UInt8) (color : ℕ)
  | displayText (x y : ℕ) (s : List UInt8) (color : ℕ)
  | lineH (x y w color : ℕ)
  deriving Repr, DecidableEq

/-- What the graphics library returns: whether an image was drawn, and the width of a text. -/
structure Gfx where
  imageUri : ℕ → ℕ → ℕ → ℕ → List UInt8 → Bool
  drawn : Draw → ℕ

/-- The string that a loop copies from the pool into a buffer of `cap` bytes. -/
def Document.str (d : Document) (cap : ℕ) (s : Span) : List UInt8 := cstr ((d.bytes s).take (cap - 1))

def paintImage (g : Gfx) (d : Document) (i : PaintItem) (x py : ℤ) : List Draw :=
  let uri := d.str 256 i.src
  let at_ := (uint32 (x + i.x), uint32 py, uint32 i.w, uint32 i.h)
  let image := if uri = [] then [] else [.image at_.1 at_.2.1 at_.2.2.1 at_.2.2.2 uri]
  if uri = [] ∨ g.imageUri at_.1 at_.2.1 at_.2.2.1 at_.2.2.2 uri = false then
    let alt := d.str 96 i.text
    image ++ [.rect at_.1 at_.2.1 at_.2.2.1 at_.2.2.2 0xE7EDF3,
      .text (uint32 (x + i.x + 8)) (uint32 (py + 8)) (if alt = [] then ascii "[image]" else alt)
        0x60758A]
  else image

def paintText (g : Gfx) (d : Document) (i : PaintItem) (x py : ℤ) : List Draw :=
  let t := d.str 160 i.text
  let call := if i.scale = 2 then Draw.displayText (uint32 (x + i.x)) (uint32 py) t i.color
    else Draw.text (uint32 (x + i.x)) (uint32 py) t i.color
  if i.flags &&& (asterPaintLink ||| asterPaintUnderline) ≠ 0 then
    [call, .lineH (uint32 (x + i.x)) (uint32 (py + i.h - 4)) (g.drawn call)
      (if i.flags &&& asterPaintLink ≠ 0 then 0x6BA5D8 else i.color)]
  else [call]

def asterPaint (g : Gfx) (d : Document) (x y width height scroll : ℤ) : List Draw :=
  d.paint.flatMap fun i =>
    let py := y + i.y - scroll
    if py + i.h < y ∨ py > y + height ∨ i.x ≥ width ∨ i.x + i.w < 0 then []
    else if i.flags &&& asterPaintImage ≠ 0 then paintImage g d i x py
    else paintText g d i x py

/-- The link at a point, in a buffer of `cap` bytes. -/
def asterLinkAt (d : Document) (x y scroll : ℤ) (cap : ℕ) : Option (List UInt8) :=
  if cap = 0 then none
  else
    let yy := y + scroll
    (d.paint.reverse.find? fun i =>
      i.href.len ≠ 0 && !(x < i.x || x ≥ i.x + i.w || yy < i.y || yy ≥ i.y + i.h)).map fun i =>
        (d.bytes i.href).take (cap - 1)

end Orion.Aster
