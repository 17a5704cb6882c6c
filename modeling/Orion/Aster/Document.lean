import Orion.Aster.Text

/-!
# Documents (`include/aster.h`, `kernel/aster.c`)

The arrays of a document are lists, so that `node_count`, `paint_count` and `css_count` are lengths.
`text` is the part of the text pool that is in use, `text_used` its length; `oldText` is what the
array held when the document was initialised, which is still there behind the part in use.  An index
of -1 is `none`.

A slice of the pool keeps the bytes that `store` was asked to store for it (`asked`).  Nothing reads
them.
-/

namespace Orion.Aster

def asterMaxNodes : ℕ := 384

def asterMaxPaint : ℕ := 512

def asterTextCap : ℕ := 24576

def asterMaxCssRules : ℕ := 32

/-- An offset into the text pool and a length. -/
structure Span where
  off : ℕ
  len : ℕ
  deriving Repr, DecidableEq

structure Slice extends Span where
  asked : List UInt8
  deriving Repr, DecidableEq

def Slice.none : Slice := ⟨⟨0, 0⟩, []⟩

inductive NodeType where
  | root | element | text
  deriving Repr, DecidableEq

structure Node where
  type : NodeType
  tag : Tag
  parent : Option ℕ
  firstChild : Option ℕ
  nextSibling : Option ℕ
  text : Slice
  href : Slice
  src : Slice
  id : Slice
  cls : Slice
  widthHint : ℕ
  heightHint : ℕ
  styleFlags : UInt8
  styleScale : ℕ
  styleColor : ℕ
  deriving Repr, DecidableEq

inductive SelectorKind where
  | any | tag | cls | id | tagCls | tagId
  deriving Repr, DecidableEq

/-- A rule; `none` is `CSS_ANY_TAG`. -/
structure CssRule where
  tag : Option Tag
  kind : SelectorKind
  selector : Slice
  style : Style
  deriving Repr, DecidableEq

structure PaintItem where
  x : ℤ
  y : ℤ
  w : ℤ
  h : ℤ
  scale : ℕ
  flags : UInt8
  color : ℕ
  text : Span
  href : Span
  src : Span
  deriving Repr, DecidableEq

structure Document where
  nodes : List Node
  paint : List PaintItem
  css : List CssRule
  text : List UInt8
  oldText : ℕ → UInt8
  documentHeight : ℤ
  title : List UInt8

/-- `d->text[i]`: stored text, the zero byte behind it, or what was there before. -/
def Document.textAt (d : Document) (i : ℕ) : UInt8 :=
  if i < d.text.length then d.text.getD i 0
  else if i = d.text.length ∧ d.text ≠ [] then 0
  else d.oldText i

/-- The bytes of a span of the pool. -/
def Document.bytes (d : Document) (s : Span) : List UInt8 :=
  (List.range s.len).map fun i => d.textAt (s.off + i)

/-- A static document before its first use. -/
def Document.zero : Document := ⟨[], [], [], [], fun _ => 0, 0, []⟩

/-! ## The text pool -/

def store (d : Document) (s : List UInt8) : ℕ × Document :=
  if s = [] ∨ d.text.length ≥ asterTextCap - 1 then (0, d)
  else
    (d.text.length,
      { d with text := d.text ++ s.take (asterTextCap - 1 - d.text.length) })

/-- `off = store(d, s, n); len = (uint16_t)n;` -/
def storeSlice (d : Document) (s : List UInt8) : Slice × Document :=
  (⟨⟨(store d s).1, u16 s.length⟩, s⟩, (store d s).2)

/-! ## The tree -/

def Node.new (parent : Option ℕ) (type : NodeType) (tag : Tag) (text : Slice) : Node where
  type := type
  tag := tag
  parent := parent
  firstChild := none
  nextSibling := none
  text := text
  href := .none
  src := .none
  id := .none
  cls := .none
  widthHint := 0
  heightHint := 0
  styleFlags := 0
  styleScale := 0
  styleColor := 0

/-- `while(d->nodes[c].next_sibling>=0)c=d->nodes[c].next_sibling;` -/
def lastSibling (nodes : List Node) : ℕ → ℕ → ℕ
  | 0, c => c
  | fuel + 1, c =>
    match nodes[c]? with
    | none => c
    | some n =>
      match n.nextSibling with
      | none => c
      | some c => lastSibling nodes fuel c

def setFirstChild (i : ℕ) (n : Node) : Node := { n with firstChild := some i }

def setNextSibling (i : ℕ) (n : Node) : Node := { n with nextSibling := some i }

/-- Append node `i` to the children of `p`. -/
def linkChild (nodes : List Node) (p i : ℕ) : List Node :=
  match nodes[p]? with
  | none => nodes
  | some q =>
    match q.firstChild with
    | none => nodes.modify p (setFirstChild i)
    | some c => nodes.modify (lastSibling nodes nodes.length c) (setNextSibling i)

/-- Returns the index of the new node, or -1. -/
def add (d : Document) (p : Option ℕ) (type : NodeType) (tag : Tag) (text : Slice) :
    Option ℕ × Document :=
  if d.nodes.length ≥ asterMaxNodes then (none, d)
  else
    let i := d.nodes.length
    let nodes := d.nodes ++ [Node.new p type tag text]
    (some i, { d with nodes := match p with
      | none => nodes
      | some p => linkChild nodes p i })

def asterDocumentInit (d : Document) : Document :=
  let d : Document := ⟨[], [], [], [], d.textAt, 0, []⟩
  (add d none .root .unknown .none).2

/-! ## Style sheets -/

/-- The characters that a simple selector may not have. -/
def complexSelectorChar (c : UInt8) : Bool := sp c || c = 62 || c = 91 || c = 58 || c = 43

/-- `.` or `#`. -/
def selectorMark (c : UInt8) : Bool := c = 46 || c = 35

/-- The tag, the kind and the name that a selector text asks for. -/
def selectorParts (s : List UInt8) : Option (Option Tag × SelectorKind × List UInt8) :=
  let s := trimSp s
  if s = [] ∨ s.any complexSelectorChar then none
  else if s = [42] then some (none, .any, [])
  else
    let head := s.takeWhile (!selectorMark ·)
    match s.dropWhile (!selectorMark ·) with
    | [] => if tagid s = .unknown then none else some (some (tagid s), .tag, [])
    | mark :: name =>
      if head = [] then
        if name = [] then none else some (none, if mark = 46 then .cls else .id, name)
      else if tagid head = .unknown ∨ name = [] then none
      else some (some (tagid head), if mark = 46 then .tagCls else .tagId, name)

/-- A name is stored, and the selector is refused if its length is 0 as a 16-bit number. -/
def selector (d : Document) (s : List UInt8) :
    Option (Option Tag × SelectorKind × Slice) × Document :=
  match selectorParts s with
  | none => (none, d)
  | some (tag, kind, name) =>
    if name = [] then (some (tag, kind, .none), d)
    else
      let (slice, d) := storeSlice d name
      (if slice.len ≠ 0 then some (tag, kind, slice) else none, d)

def cssadd (d : Document) (s : List UInt8) (st : Style) : Document :=
  if d.css.length ≥ asterMaxCssRules then d
  else
    match selector d s with
    | (none, d) => d
    | (some (tag, kind, slice), d) => { d with css := d.css ++ [⟨tag, kind, slice, st⟩] }

/-- The selectors of one rule. -/
def ruleSelectors : ℕ → List UInt8 → List (List UInt8)
  | 0, _ => []
  | fuel + 1, s =>
    if s = [] then []
    else s.takeWhile (· ≠ 44) :: ruleSelectors fuel ((s.dropWhile (· ≠ 44)).drop 1)

/-- The selectors of a sheet, each with the style of its rule. -/
def sheetRules : ℕ → List UInt8 → List (List UInt8 × Style)
  | 0, _ => []
  | fuel + 1, s =>
    if s = [] then []
    else
      let s := s.dropWhile sp
      let sel := s.takeWhile (· ≠ 123)
      match s.dropWhile (· ≠ 123) with
      | [] => []
      | _ :: s =>
        let st := styletext (s.takeWhile (· ≠ 125))
        (ruleSelectors sel.length sel).map (·, st) ++
          sheetRules fuel ((s.dropWhile (· ≠ 125)).drop 1)

/-- The loops of `css` stop when the rules are full; `cssadd` does nothing from there on. -/
def css (d : Document) (s : List UInt8) : Document :=
  (sheetRules s.length s).foldl (fun d r => cssadd d r.1 r.2) d

/-! ## Attributes of a node -/

/-- `if(attr(s,len,name,&v,&z)&&z){n->off=store(d,v,z);n->len=(uint16_t)z;}` -/
def attrSlice (s name : List UInt8) (set : Node → Slice → Node) (r : Node × Document) :
    Node × Document :=
  match attr s name with
  | none => r
  | some v =>
    if v = [] then r
    else
      let (slice, d) := storeSlice r.2 v
      (set r.1 slice, d)

/-- The `alt` text is decoded into a buffer of 192 bytes. -/
def attrAlt (s : List UInt8) (r : Node × Document) : Node × Document :=
  match attr s (ascii "alt") with
  | none => r
  | some v =>
    if v = [] then r
    else
      let (slice, d) := storeSlice r.2 (decode 192 v)
      ({ r.1 with text := slice }, d)

/-- `width`, `height` and `style`, which store no text. -/
def attrHints (s : List UInt8) (n : Node) : Node :=
  let n := match attr s (ascii "width") with
    | none => n
    | some v => { n with widthHint := dim v }
  let n := match attr s (ascii "height") with
    | none => n
    | some v => { n with heightHint := dim v }
  match attr s (ascii "style") with
  | none => n
  | some v =>
    let st := styletext v
    { n with
      styleFlags := st.flags
      styleScale := st.scale
      styleColor := if st.colorSet then st.color else 0 }

def attrs (d : Document) (n : Node) (s : List UInt8) : Node × Document :=
  let r := attrSlice s (ascii "href") (fun n slice => { n with href := slice }) (n, d)
  let r := attrSlice s (ascii "src") (fun n slice => { n with src := slice }) r
  let r := attrSlice s (ascii "id") (fun n slice => { n with id := slice }) r
  let r := attrSlice s (ascii "class") (fun n slice => { n with cls := slice }) r
  let r := attrAlt s r
  (attrHints s r.1, r.2)

end Orion.Aster
