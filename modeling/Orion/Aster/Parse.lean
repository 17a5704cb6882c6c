import Orion.Aster.Document

/-!
# The parser (`aster_parse_html`)

One turn of the main loop reads a piece of markup and changes the document.  The two are separated
here: `nextToken` moves the pointer and depends on the text alone, `applyToken` works on the document
and the stack of open elements.  The stack is a list whose head is `st[spn-1]`; its last entry is the
root, which is never popped.
-/

namespace Orion.Aster

/-! ## Tokens -/

/-- What one turn reads. -/
inductive Token where
  | text (raw : List UInt8)
  | skip
  | close (tag : Tag)
  | element (tag : Tag) (attrs : List UInt8) (self : Bool)
  | style (attrs sheet : List UInt8)
  | script (attrs : List UInt8)
  deriving Repr, DecidableEq

/-- `while(*p&&*p!='>')p++;if(*p)p++;` -/
def afterGt (p : List UInt8) : List UInt8 := (p.dropWhile (· ≠ 62)).drop 1

def closep : List UInt8 → List UInt8 → List UInt8
  | [], _ => []
  | c :: p, e => if ci (c :: p) e then c :: p else closep p e

/-- The text behind the end of a comment. -/
def afterComment : List UInt8 → List UInt8
  | [] => []
  | c :: p => if (ascii "-->").isPrefixOf (c :: p) then p.drop 2 else afterComment p

/-- `!sp(*p)&&*p!='>'&&*p!='/'` -/
def tagNameChar (c : UInt8) : Bool := !sp c && c ≠ 62 && c ≠ 47

/-- `self`: the attributes end with a slash. -/
def selfClosing (a : List UInt8) : Bool := (a.rdropWhile sp).getLast? = some 47

/-- An opening tag whose name ends at `p`. -/
def openToken (t : Tag) (p : List UInt8) : Token × List UInt8 :=
  let a := p.takeWhile (· ≠ 62)
  let p := afterGt p
  if t = .style then
    let e := closep p (ascii "</style")
    (.style a (p.take (p.length - e.length)), afterGt e)
  else if t = .script then (.script a, afterGt (closep p (ascii "</script")))
  else (.element t a (selfClosing a), p)

/-- A tag, behind its `<`. -/
def tagToken (p : List UInt8) : Token × List UInt8 :=
  let cl := p.head? = some 47
  let p := (if cl then p.drop 1 else p).dropWhile sp
  let t := tagid (p.takeWhile tagNameChar)
  let p := p.dropWhile tagNameChar
  if cl then (.close t, afterGt p) else openToken t p

def nextToken (p : List UInt8) : Token × List UInt8 :=
  if p.head? ≠ some 60 then (.text (p.takeWhile (· ≠ 60)), p.dropWhile (· ≠ 60))
  else if ci p (ascii "<!--") then (.skip, afterComment (p.drop 4))
  else if p[1]? = some 33 ∨ p[1]? = some 63 then (.skip, afterGt p)
  else tagToken (p.drop 1)

/-! ## The document -/

structure ParseState where
  doc : Document
  stack : List ℕ

/-- `cp(d,cap,s,n)`. -/
def cp (cap : ℕ) (s : List UInt8) : List UInt8 := (s.takeWhile (· ≠ 0)).take (cap - 1)

def tagOf (d : Document) (i : ℕ) : Tag :=
  match d.nodes[i]? with
  | some n => n.tag
  | none => .unknown

/-- A piece of text below node `top`. -/
def applyText (d : Document) (top : ℕ) (raw : List UInt8) : Document :=
  let t := decode 768 raw
  if t = [] then d
  else
    let (slice, d) := storeSlice d t
    match add d (some top) .text .unknown slice with
    | (none, d) => d
    | (some _, d) =>
      if tagOf d top = .title ∧ d.title = [] then { d with title := cp 96 t } else d

/-- A new element below node `top`, with its attributes; when the nodes run out, the loop ends. -/
def applyElement (d : Document) (top : ℕ) (t : Tag) (a : List UInt8) : Option ℕ × Document :=
  match add d (some top) .element t .none with
  | (none, d) => (none, d)
  | (some idx, d) =>
    match d.nodes[idx]? with
    | none => (some idx, d)
    | some n =>
      let (n, d) := attrs d n a
      (some idx, { d with nodes := d.nodes.set idx n })

/-- The stack below the topmost open element with a tag, if there is one above the root. -/
def findOpen (d : Document) (t : Tag) : List ℕ → Option (List ℕ)
  | i :: j :: rest => if tagOf d i = t then some (j :: rest) else findOpen d t (j :: rest)
  | _ => none

def applyToken (s : ParseState) (token : Token) : ParseState :=
  let top := s.stack.headD 0
  match token with
  | .text raw => { s with doc := applyText s.doc top raw }
  | .skip => s
  | .close t => { s with stack := (findOpen s.doc t s.stack).getD s.stack }
  | .element t a self =>
    match applyElement s.doc top t a with
    | (none, d) => { s with doc := d }
    | (some idx, d) =>
      if !self && !voidtag t && s.stack.length < 48 then ⟨d, idx :: s.stack⟩ else { s with doc := d }
  | .style a sheet =>
    match applyElement s.doc top .style a with
    | (none, d) => { s with doc := d }
    | (some _, d) => { s with doc := css d sheet }
  | .script a => { s with doc := (applyElement s.doc top .script a).2 }

/-! ## The loop -/

def parseLoop : ℕ → List UInt8 → ParseState → ParseState
  | 0, _, s => s
  | fuel + 1, p, s =>
    if p = [] ∨ s.doc.nodes.length ≥ asterMaxNodes then s
    else parseLoop fuel (nextToken p).2 (applyToken s (nextToken p).1)

/-- The bytes of a buffer up to the terminating zero byte. -/
def cstr (h : List UInt8) : List UInt8 := h.takeWhile (· ≠ 0)

def untitled : List UInt8 := ascii "Untitled page"

/-- Returns whether there is a node besides the root, and the document. -/
def asterParseHtml (d : Document) (h : List UInt8) : Bool × Document :=
  let s := parseLoop (cstr h).length (cstr h) ⟨asterDocumentInit d, [0]⟩
  let d := if s.doc.title = [] then { s.doc with title := cp 96 untitled } else s.doc
  (d.nodes.length > 1, d)

end Orion.Aster
