import Orion.Vela.Url

/-!
# The script subset (`scripts`, `preprocess`)

Assignments and calls are found by a search for their names; only the first of each kind in a script
counts.  What a script wants to log is left out.
-/

namespace Orion.Vela

open Orion.Aster (ci cstr)

def velaRawCap : ℕ := 32768

def velaJsTextCap : ℕ := 1536

/-! ## Strings of a script -/

/-- The characters of a literal up to the quote `q`. -/
def jsstrLoop (q : UInt8) : List UInt8 → List UInt8
  | [] => []
  | c :: p =>
    if c = q then []
    else if c = 92 then
      match p with
      | [] => [c]
      | e :: p => (if e = 110 then 10 else if e = 114 then 13 else if e = 116 then 9 else e) ::
          jsstrLoop q p
    else c :: jsstrLoop q p

/-- A literal in a buffer of `cap` bytes; the empty one counts as none. -/
def jsstr (cap : ℕ) (p : List UInt8) : Option (List UInt8) :=
  match p.dropWhile isBlank with
  | [] => none
  | q :: p =>
    if q = 39 ∨ q = 34 then
      let out := (jsstrLoop q p).take (cap - 1)
      if out = [] then none else some out
    else none

/-- The literal that is assigned to `e`. -/
def jsassign (cap : ℕ) (s e : List UInt8) : Option (List UInt8) :=
  match findci e s with
  | none => none
  | some p =>
    match p.dropWhile (· ≠ 61) with
    | [] => none
    | _ :: p => jsstr cap p

/-- The literal that `n` is called with. -/
def jscall (cap : ℕ) (s n : List UInt8) : Option (List UInt8) :=
  match findci n s with
  | none => none
  | some p =>
    match p.dropWhile (· ≠ 40) with
    | [] => none
    | _ :: p => jsstr cap p

/-! ## The scripts of a page -/

/-- What the scripts of a page ask for. -/
structure Effects where
  redir : List UInt8
  title : List UInt8
  body : List UInt8
  write : List UInt8
  deriving Repr, DecidableEq

/-- One script. -/
def scriptStep (s : List UInt8) (e : Effects) : Effects :=
  let s := s.take (velaJsTextCap - 1)
  let e := match jsassign 1024 s (ascii "document.title") with
    | some t => { e with title := cp 96 t }
    | none => e
  let e := match jsassign 1024 s (ascii "document.body.innerhtml") with
    | some t => { e with body := cp 4096 t }
    | none => e
  let e := match (jsassign 1024 s (ascii "window.location.href")).orElse
      fun _ => jsassign 1024 s (ascii "location.href") with
    | some t => { e with redir := cp velaUrlCap t }
    | none => e
  match jscall 1024 s (ascii "document.write") with
  | some t => { e with write := cat 2048 e.write t }
  | none => e

/-- The loop of `scripts` over the elements from `p` on. -/
def scriptsLoop : ℕ → List UInt8 → Effects → Effects
  | 0, _, e => e
  | fuel + 1, p, e =>
    match findci (ascii "<script") p with
    | none => e
    | some p =>
      match p.dropWhile (· ≠ 62) with
      | [] => e
      | _ :: g =>
        match findci (ascii "</script") g with
        | none => e
        | some rest =>
          scriptsLoop fuel (rest.drop 8) (scriptStep (g.take (g.length - rest.length)) e)

def scripts (raw : List UInt8) : Effects := scriptsLoop raw.length raw ⟨[], [], [], []⟩

/-- A page that a script has written. -/
def scriptPage (body write : List UInt8) : List UInt8 :=
  let b := cat velaRawCap [] (ascii "<html><head><title>UN_Vela script</title></head><body>")
  cat velaRawCap (cat velaRawCap (cat velaRawCap b body) write) (ascii "</body></html>")

/-- The redirection, the title and the page that is left, with scripts on or off. -/
def preprocess (javascript : Bool) (raw : List UInt8) : List UInt8 × List UInt8 × List UInt8 :=
  if javascript = false then ([], [], raw)
  else
    let e := scripts raw
    let raw := if e.body ≠ [] then cp velaRawCap (scriptPage e.body e.write)
      else if e.write ≠ [] then cat velaRawCap raw e.write
      else raw
    (e.redir, e.title, raw)

end Orion.Vela
