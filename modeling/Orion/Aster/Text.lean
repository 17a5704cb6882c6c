import Orion.Lib.Text
import Orion.Machine

/-!
# Reading markup (`kernel/aster.c`)

The functions of the layout engine that read characters: entities, tag names, attributes and inline
styles.  A pointer with a length is a byte list, a pointer into a C string is the rest of the string;
a loop that moves a pointer takes as many turns at most as the list has bytes, which is its fuel.
-/

namespace Orion.Aster

/-! ## Characters -/

def sp (c : UInt8) : Bool := c = 32 || c = 9 || c = 13 || c = 10

def low (c : UInt8) : UInt8 := lowerAscii c

def ci (s p : List UInt8) : Bool := startsCi s p

/-- Equality with a literal, up to case. -/
def eqn (s l : List UInt8) : Bool := eqCi s l

/-- `while(n&&sp(*s)){s++;n--;}while(n&&sp(s[n-1]))n--;` -/
def trimSp (s : List UInt8) : List UInt8 := (s.dropWhile sp).rdropWhile sp

/-! ## Entities -/

/-- The character that an entity at the head of `s` stands for, and its length. -/
def entity (s : List UInt8) : Option (UInt8 × ℕ) :=
  if ci s (ascii "&lt;") then some (60, 4)
  else if ci s (ascii "&gt;") then some (62, 4)
  else if ci s (ascii "&amp;") then some (38, 5)
  else if ci s (ascii "&nbsp;") then some (32, 6)
  else if ci s (ascii "&quot;") then some (34, 6)
  else none

/-- The next character of `c :: rest`, with entities decoded, and what is left. -/
def nextChar (c : UInt8) (rest : List UInt8) : UInt8 × List UInt8 :=
  match entity (c :: rest) with
  | some (e, n) => (e, rest.drop (n - 1))
  | none => (c, rest)

/-- The loop of `decode`: `ws` says that whitespace was skipped. -/
def decodeLoop (cap : ℕ) : ℕ → List UInt8 → Bool → List UInt8 → List UInt8
  | 0, _, _, out => out
  | _ + 1, [], _, out => out
  | fuel + 1, c :: rest, ws, out =>
    if out.length + 1 < cap then
      let (c, rest) := nextChar c rest
      if sp c then decodeLoop cap fuel rest true out
      else decodeLoop cap fuel rest false ((if ws && out ≠ [] then out ++ [32] else out) ++ [c])
    else out

/-- The characters written to `out`, before the terminating zero byte. -/
def decode (cap : ℕ) (s : List UInt8) : List UInt8 :=
  if cap = 0 then [] else decodeLoop cap s.length s false []

/-! ## Tags -/

inductive Tag where
  | unknown | html | head | body | title | h1 | h2 | h3 | p | div | br | hr | a | ul | ol | li
  | strong | em | code | span | header | footer | main | nav | section | article | blockquote
  | script | style | img | button
  deriving Repr, DecidableEq

/-- The names of the tags, in the order of the comparisons. -/
def tagNames : List (String × Tag) :=
  [("html", .html), ("head", .head), ("body", .body), ("title", .title), ("h1", .h1), ("h2", .h2),
    ("h3", .h3), ("p", .p), ("div", .div), ("br", .br), ("hr", .hr), ("a", .a), ("ul", .ul),
    ("ol", .ol), ("li", .li), ("strong", .strong), ("b", .strong), ("em", .em), ("i", .em),
    ("code", .code), ("span", .span), ("header", .header), ("footer", .footer), ("main", .main),
    ("nav", .nav), ("section", .section), ("article", .article), ("blockquote", .blockquote),
    ("script", .script), ("style", .style), ("img", .img), ("button", .button)]

def tagid (s : List UInt8) : Tag :=
  match tagNames.find? fun e => eqn s (ascii e.1) with
  | some e => e.2
  | none => .unknown

def block : Tag → Bool
  | .body | .h1 | .h2 | .h3 | .p | .div | .ul | .ol | .li | .header | .footer | .main | .nav
  | .section | .article | .blockquote | .hr | .img => true
  | _ => false

def voidtag : Tag → Bool
  | .br | .hr | .img => true
  | _ => false

/-! ## Attributes -/

def attrNameChar (c : UInt8) : Bool := !sp c && c ≠ 61 && c ≠ 62

def attrPlainChar (c : UInt8) : Bool := !sp c && c ≠ 62

/-- The value of an attribute behind its `=`, and what is left. -/
def attrValue (s : List UInt8) : List UInt8 × List UInt8 :=
  match s with
  | [] => ([], [])
  | q :: rest =>
    if q = 39 ∨ q = 34 then (rest.takeWhile (· ≠ q), (rest.dropWhile (· ≠ q)).drop 1)
    else ((q :: rest).takeWhile attrPlainChar, (q :: rest).dropWhile attrPlainChar)

def attrLoop (want : List UInt8) : ℕ → List UInt8 → Option (List UInt8)
  | 0, _ => none
  | fuel + 1, s =>
    if s = [] then none
    else
      let s := s.dropWhile sp
      let name := s.takeWhile attrNameChar
      match (s.dropWhile attrNameChar).dropWhile sp with
      | 61 :: s =>
        let (value, s) := attrValue (s.dropWhile sp)
        if eqn name want then some value else attrLoop want fuel s
      | s => attrLoop want fuel (s.dropWhile (!sp ·))

/-- The value of the attribute `want`. -/
def attr (s want : List UInt8) : Option (List UInt8) := attrLoop want s.length s

def dim (s : List UInt8) : ℕ :=
  (s.takeWhile isDigit).foldl (fun v c => min (v * 10 + digitVal c) 4096) 0

/-! ## Inline styles -/

def asterStyleHidden : UInt8 := 1

def asterStyleBold : UInt8 := 2

def asterStyleUnderline : UInt8 := 4

structure Style where
  flags : UInt8
  scale : ℕ
  colorSet : Bool
  color : ℕ
  deriving Repr, DecidableEq

def hexColor (s : List UInt8) : Option ℕ :=
  s.foldlM (fun v c => (hexDigit c).map fun h => v * 16 + h) 0

def color (s : List UInt8) : Option ℕ :=
  let s := trimSp s
  if s.length = 7 ∧ s.head? = some 35 then hexColor (s.drop 1)
  else if eqn s (ascii "red") then some 0xCC3344
  else if eqn s (ascii "green") then some 0x2E8B57
  else if eqn s (ascii "blue") then some 0x2468C4
  else if eqn s (ascii "black") then some 0
  else if eqn s (ascii "white") then some 0xFFFFFF
  else if eqn s (ascii "gray") ∨ eqn s (ascii "grey") then some 0x777777
  else none

/-- The number at the head of a font size, modulo `2^32`. -/
def fontSize (v : List UInt8) : ℕ :=
  (v.takeWhile isDigit).foldl (fun x c => u32 (x * 10 + digitVal c)) 0

/-- The character behind a value is a blank, a semicolon, a quote, a bracket or the end, so that
looking for `underline` may stop at the end of the value. -/
def decl (st : Style) (n v : List UInt8) : Style :=
  let v := trimSp v
  if eqn n (ascii "color") then
    match color v with
    | some c => { st with color := c, colorSet := true }
    | none => st
  else if eqn n (ascii "font-weight") ∧ eqn v (ascii "bold") then
    { st with flags := st.flags ||| asterStyleBold }
  else if eqn n (ascii "text-decoration") ∧ ci v (ascii "underline") then
    { st with flags := st.flags ||| asterStyleUnderline }
  else if eqn n (ascii "display") ∧ eqn v (ascii "none") then
    { st with flags := st.flags ||| asterStyleHidden }
  else if eqn n (ascii "font-size") then
    let x := fontSize v
    if x ≥ 22 then { st with scale := 2 } else if x ≠ 0 then { st with scale := 1 } else st
  else st

def declNameChar (c : UInt8) : Bool := c ≠ 58 && c ≠ 59

def styletextLoop : ℕ → List UInt8 → Style → Style
  | 0, _, st => st
  | fuel + 1, s, st =>
    if s = [] then st
    else
      let s := s.dropWhile fun c => sp c || c = 59
      let name := s.takeWhile declNameChar
      match s.dropWhile declNameChar with
      | 58 :: s =>
        styletextLoop fuel (s.dropWhile (· ≠ 59))
          (decl st (name.rdropWhile sp) (s.takeWhile (· ≠ 59)))
      | s => styletextLoop fuel (s.dropWhile (· ≠ 59)) st

def styletext (s : List UInt8) : Style := styletextLoop s.length s ⟨0, 0, false, 0⟩

end Orion.Aster
