import Orion.Vela.Script

/-!
# The browser (`kernel/vela.c`)

The static variables of the browser are one record and its functions work on that record.  `history`
has the live entries of `g_history`, so that `g_history_count` is its length.  `url` has the first
`g_url_len` bytes of `g_url`; they are a C string unless a zero byte was typed.

The platform's `http_get` is a parameter: what it answers may depend on the address and on the number
of calls before, so that any behaviour over time is covered.  Repainting and log messages are left
out.
-/

namespace Orion.Vela

open Orion.Aster (ci cstr Document asterParseHtml asterLayout asterDocumentHeight asterLinkAt)

def velaHistoryMax : ℕ := 12

def velaFeatureJavascript : ℕ := 1

def velaProfileLite : ℕ := 0

def velaProfileFull : ℕ := velaFeatureJavascript

/-! ## The platform -/

/-- What `http_get` returns and leaves in its two buffers. -/
structure Reply where
  ok : Bool
  raw : List UInt8
  status : List UInt8

/-- The behaviour of `http_get`, by the number of the call and the address. -/
structure Backend where
  httpGet : ℕ → List UInt8 → Reply

/-- What the browser reads of the table that the platform passes. -/
structure PlatformOps where
  compatible : Bool
  capHttp : Bool
  capTls : Bool
  hasHttpGet : Bool
  deriving Repr, DecidableEq

/-! ## The state -/

structure Browser where
  doc : Document
  raw : List UInt8
  url : List UInt8
  status : List UInt8
  history : List (List UInt8)
  index : ℤ
  viewport : ℤ
  viewportH : ℤ
  scroll : ℤ
  features : ℕ
  platform : Option PlatformOps
  calls : ℕ

/-- The static variables before the first call. -/
def Browser.zero : Browser := ⟨.zero, [], [], [], [], -1, 720, 420, 0, velaProfileFull, none, 0⟩

/-- `g_platform_ready&&(g_platform.capabilities&VELA_PLATFORM_CAP_TLS)`. -/
def Browser.tls (v : Browser) : Bool :=
  match v.platform with
  | some p => p.capTls
  | none => false

def Browser.canHttp (v : Browser) : Bool :=
  match v.platform with
  | some p => p.capHttp && p.hasHttpGet
  | none => false

def Browser.javascript (v : Browser) : Bool := v.features &&& velaFeatureJavascript ≠ 0

def Browser.setStatus (v : Browser) (s : List UInt8) : Browser := { v with status := cp velaStatusCap s }

def seturl (v : Browser) (s : List UInt8) : Browser := { v with url := cp velaUrlCap s }

/-- `g_viewport>40?g_viewport-40:g_viewport`. -/
def Browser.pageWidth (v : Browser) : ℤ := if v.viewport > 40 then v.viewport - 40 else v.viewport

def parse (v : Browser) : Browser :=
  { v with
    doc := asterLayout (asterParseHtml v.doc v.raw).2 v.pageWidth
    scroll := 0 }

/-- `preprocess`, `parse` and the title that a script has set; returns the redirection. -/
def render (v : Browser) : List UInt8 × Browser :=
  let (red, title, raw) := preprocess v.javascript v.raw
  let v := parse { v with raw := raw }
  (red, if title = [] then v else { v with doc := { v.doc with title := cp 96 title } })

/-! ## History -/

/-- `g_history[i]`. -/
def Browser.entry (v : Browser) (i : ℤ) : List UInt8 := v.history.getD i.toNat []

def hist (v : Browser) (u : List UInt8) : Browser :=
  if u = [] then v
  else if v.index ≥ 0 ∧ v.entry v.index = u then v
  else
    let history := if v.index + 1 < v.history.length then v.history.take (v.index + 1).toNat
      else v.history
    if history.length < velaHistoryMax then
      { v with history := history ++ [cp velaUrlCap u], index := history.length }
    else
      { v with
        history := history.drop 1 ++ [cp velaUrlCap u]
        index := velaHistoryMax - 1 }

/-! ## Navigation -/

/-- `navdepth` up to the call of `http_get`: the address that was loaded, unless it failed. -/
def fetch (w : Backend) (u : List UInt8) (v : Browser) : Option (List UInt8) × Browser :=
  if u = [] then (none, v.setStatus (ascii "Enter an HTTP/HTTPS address"))
  else if v.canHttp = false then (none, v.setStatus (ascii "No HTTP backend installed"))
  else
    match canon v.tls u with
    | .error m => (none, v.setStatus m)
    | .ok n =>
      let r := w.httpGet v.calls n
      (if r.ok then some n else none,
        { v with
          raw := cp velaRawCap r.raw
          status := cp velaStatusCap r.status
          calls := v.calls + 1 })

/-- The page that was loaded becomes the document; returns the redirection. -/
def commit (push : Bool) (n : List UInt8) (v : Browser) : List UInt8 × Browser :=
  let (red, v) := render (seturl v n)
  (red, if push then hist v n else v)

/-- The address that a redirection leads to, if it is followed. -/
def redirect (n red : List UInt8) (v : Browser) : Option (List UInt8) × Browser :=
  if red = [] then (none, v)
  else
    match resolve v.tls n red with
    | .error none => (none, v)
    | .error (some m) => (none, v.setStatus m)
    | .ok next => if ci next (ascii "javascript:") then (none, v) else (some next, v)

/-- The status line of a page that has been loaded. -/
def finish (v : Browser) : Browser :=
  if v.doc.title = [] then v
  else
    { v with
      status := cat velaStatusCap (cat velaStatusCap (cp velaStatusCap v.doc.title) (ascii " / "))
        v.status }

/-- `navdepth` with `2 - depth` redirections left. -/
def navdepth (w : Backend) (push : Bool) : ℕ → List UInt8 → Browser → Bool × Browser
  | 0, u, v =>
    match fetch w u v with
    | (none, v) => (false, v)
    | (some n, v) => (true, finish (commit push n v).2)
  | left + 1, u, v =>
    match fetch w u v with
    | (none, v) => (false, v)
    | (some n, v) =>
      let (red, v) := commit push n v
      match redirect n red v with
      | (none, v) => (true, finish v)
      | (some next, v) => navdepth w push left next v

def nav (w : Backend) (u : List UInt8) (push : Bool) (v : Browser) : Bool × Browser :=
  navdepth w push 2 u v

/-! ## Operations -/

def velaSetPlatform (p : Option PlatformOps) (v : Browser) : Bool × Browser :=
  match p with
  | none => (true, { v with platform := none })
  | some p =>
    if p.compatible then (true, { v with platform := some p })
    else (false, { v with platform := none })

def velaSetFeatures (f : ℕ) (v : Browser) : Browser := { v with features := f }

def startHtml : List UInt8 :=
  ascii "<html><head><title>UN_Vela</title><style>h2\x7bcolor:#315e80\x7d a\x7bfont-weight:bold\x7d</style></head><body><h1>UN_Vela 0.3</h1><h2>Orion native carrier</h2><p>HTML, CSS subset, images, links, history, scrolling and safe JavaScript subset are enabled.</p><p>HTTP resources are native. HTTPS is enabled only when a trusted Orion TLS provider is installed.</p></body></html>"

def startpage (v : Browser) : Browser := parse { v with raw := cp velaRawCap startHtml }

def velaInitEx (width : ℤ) (p : Option PlatformOps) (v : Browser) : Bool × Browser :=
  let v := seturl
    { v with
      viewport := if width > 120 then width else 120
      viewportH := 420
      scroll := 0
      history := []
      index := -1
      features := velaProfileFull } []
  let (ok, v) := velaSetPlatform p v
  if ok = false then (false, v)
  else (true, startpage (v.setStatus (ascii "Ready / Aster Engine 0.3.2")))

def velaSetScroll (y : ℤ) (v : Browser) : Browser :=
  let max := asterDocumentHeight v.doc - v.viewportH + 24
  let max := if max < 0 then 0 else max
  let y := if y < 0 then 0 else y
  { v with scroll := if y > max then max else y }

def velaScrollBy (d : ℤ) (v : Browser) : Browser := velaSetScroll (v.scroll + d) v

def velaSetViewportSize (w h : ℤ) (v : Browser) : Browser :=
  let w := if w < 120 then 120 else w
  let h := if h < 80 then 80 else h
  let ch := w ≠ v.viewport
  let v := { v with viewport := w, viewportH := h }
  let v := if ch then { v with doc := asterLayout v.doc v.pageWidth } else v
  velaSetScroll v.scroll v

def velaSetViewport (w : ℤ) (v : Browser) : Browser := velaSetViewportSize w v.viewportH v

def velaInputChar (c : UInt8) (v : Browser) : Browser :=
  if v.url.length < velaUrlCap - 1 then { v with url := v.url ++ [c] } else v

def velaBackspace (v : Browser) : Browser :=
  if v.url.length ≠ 0 then { v with url := v.url.dropLast } else v

def velaLoadUrl (w : Backend) (u : List UInt8) (v : Browser) : Bool × Browser := nav w (cstr u) true v

def velaGo (w : Backend) (v : Browser) : Bool × Browser := nav w (cstr v.url) true v

def velaLoadHtml (h : List UInt8) (u : Option (List UInt8)) (v : Browser) : Bool × Browser :=
  let v := seturl { v with raw := cp velaRawCap h } (u.getD (ascii "about:local"))
  let v := (render v).2.setStatus (ascii "Local document")
  (true, hist v (cstr v.url))

def velaCanBack (v : Browser) : Bool := v.index > 0

def velaCanForward (v : Browser) : Bool := v.index ≥ 0 && v.index + 1 < v.history.length

/-- `vela_back` and `vela_forward`: load entry `x` and move there. -/
def moveTo (w : Backend) (can : Bool) (x : ℤ) (v : Browser) : Bool × Browser :=
  if can = false then (false, v)
  else
    match nav w (cp velaUrlCap (v.entry x)) false v with
    | (false, v) => (false, v)
    | (true, v) => (true, { v with index := x })

def velaBack (w : Backend) (v : Browser) : Bool × Browser := moveTo w (velaCanBack v) (v.index - 1) v

def velaForward (w : Backend) (v : Browser) : Bool × Browser := moveTo w (velaCanForward v) (v.index + 1) v

def velaReload (w : Backend) (v : Browser) : Bool × Browser :=
  if cstr v.url = [] then (false, v) else nav w (cstr v.url) false v

inductive VelaNavAction where
  | back | forward | reload | lineUp | lineDown | pageUp | pageDown | home | end_
  deriving Repr, DecidableEq

/-- A scrolling action says whether the page has moved. -/
def scrolled (v v' : Browser) : Bool × Browser := (v'.scroll ≠ v.scroll, v')

def velaNavigateAction (w : Backend) (action : VelaNavAction) (v : Browser) : Bool × Browser :=
  let page := if v.viewportH > 96 then v.viewportH - 48 else 48
  match action with
  | .back => velaBack w v
  | .forward => velaForward w v
  | .reload => velaReload w v
  | .lineUp => scrolled v (velaScrollBy (-48) v)
  | .lineDown => scrolled v (velaScrollBy 48 v)
  | .pageUp => scrolled v (velaScrollBy (-page) v)
  | .pageDown => scrolled v (velaScrollBy page v)
  | .home => scrolled v (velaSetScroll 0 v)
  | .end_ => scrolled v (velaSetScroll (asterDocumentHeight v.doc) v)

/-- A link with a script. -/
def activateScript (w : Backend) (h : List UInt8) (v : Browser) : Bool × Browser :=
  if v.javascript = false then (false, v.setStatus (ascii "JavaScript disabled by profile"))
  else
    let s := cp velaJsTextCap (h.drop 11)
    match jsassign 256 s (ascii "location.href") with
    | none => (true, v.setStatus (ascii "JavaScript link executed"))
    | some t =>
      match resolve v.tls (cstr v.url) t with
      | .ok u => nav w u true v
      | .error _ => (true, v.setStatus (ascii "JavaScript link executed"))

def velaActivateLink (w : Backend) (x y : ℤ) (v : Browser) : Bool × Browser :=
  match asterLinkAt v.doc x y v.scroll velaUrlCap with
  | none => (false, v)
  | some h =>
    let h := cstr h
    if ci h (ascii "javascript:") then activateScript w h v
    else
      match resolve v.tls (cstr v.url) h with
      | .ok t => nav w t true v
      | .error none => (false, v)
      | .error (some m) => (false, v.setStatus m)

end Orion.Vela
