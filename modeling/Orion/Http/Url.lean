import Orion.Lib.Text

/-!
# URLs (`kernel/net.c`)

Bounded string building, `parse_url` and `resolve_redirect`.  A `char` buffer of `cap` bytes holds a
string of at most `cap - 1` bytes: `scopy` and `sappend` cut what does not fit.
-/

namespace Orion.Http

/-- The string that `scopy` leaves in a buffer of `cap` bytes. -/
def scopy (cap : ℕ) (s : List UInt8) : List UInt8 := s.take (cap - 1)

/-- The string that `sappend` leaves, if the buffer held `d`. -/
def sappend (cap : ℕ) (d s : List UInt8) : List UInt8 := d ++ s.take (cap - 1 - d.length)

/-- The decimal digits of a number, in up to `fuel` places. -/
def decimal : ℕ → ℕ → List UInt8
  | 0, _ => []
  | fuel + 1, v => (if v < 10 then [] else decimal fuel (v / 10)) ++ [UInt8.ofNat (48 + v % 10)]

/-- A 16-bit number has at most five digits. -/
def portDigits (port : ℕ) : List UInt8 := decimal 5 port

/-! ## Parsing -/

structure Url where
  secure : Bool
  host : List UInt8
  port : ℕ
  path : List UInt8
  deriving Repr, DecidableEq

def hostCap : ℕ := 96

def pathCap : ℕ := 160

/-- What ends a host. -/
def isHostEnd (c : UInt8) : Bool := c = 47 || c = 58 || c = 63 || c = 35

/-- `:port`, or the default. -/
def parsePort (default : ℕ) (s : List UInt8) : Option (ℕ × List UInt8) :=
  match s with
  | 58 :: s =>
    match takeNumber decDigit 10 65535 s 0 0 with
    | none => none
    | some (v, n, rest) => if n = 0 ∨ v = 0 then none else some (v, rest)
  | s => some (default, s)

/-- The path form of the rest of a URL. -/
def pathOf (s : List UInt8) : List UInt8 :=
  match s with
  | [] => [47]
  | c :: s => if c = 63 ∨ c = 35 then 47 :: c :: s else c :: s

/-- `parse_url` with buffers of 96 and 160 bytes.  The scheme is matched in lower case. -/
def parseUrl (url : List UInt8) : Option Url :=
  let scheme : Option (Bool × ℕ × List UInt8) :=
    if (ascii "https://").isPrefixOf url then some (true, 443, url.drop 8)
    else if (ascii "http://").isPrefixOf url then some (false, 80, url.drop 7)
    else none
  match scheme with
  | none => none
  | some (secure, default, s) =>
    let host := s.takeWhile (! isHostEnd ·)
    let s := s.dropWhile (! isHostEnd ·)
    if host.length ≥ hostCap ∨ host = [] then none
    else
      match parsePort default s with
      | none => none
      | some (port, s) =>
        let path := pathOf s
        if path.length ≥ pathCap then none else some ⟨secure, host, port, path⟩

/-! ## Redirects -/

/-- 1, -1 and 0. -/
inductive Resolved where
  | url (next : List UInt8)
  | downgrade
  | unsupported
  deriving Repr, DecidableEq

/-- The directory of a path: up to the last slash before a query or fragment. -/
def dirOf (path : List UInt8) : List UInt8 :=
  let plain := path.takeWhile fun c => c ≠ 63 ∧ c ≠ 35
  let last := plain.length - 1 - plain.reverse.findIdx (· = 47)
  path.take (min ((if 47 ∈ plain then last else 0) + 1) (pathCap - 1))

/-- Scheme, host and port of a base, in a buffer of `cap` bytes. -/
def originOf (cap : ℕ) (base : Url) : List UInt8 :=
  let out := scopy cap (ascii (if base.secure then "https://" else "http://"))
  let out := sappend cap out base.host
  if base.port ≠ (if base.secure then 443 else 80) then
    sappend cap (sappend cap out (ascii ":")) (portDigits base.port)
  else out

def resolveRedirect (base loc : List UInt8) (cap : ℕ) : Resolved :=
  if loc = [] ∨ cap < 9 then .unsupported
  else
    match parseUrl base with
    | none => .unsupported
    | some url =>
      if startsCi loc (ascii "https://") then .url (scopy cap loc)
      else if startsCi loc (ascii "http://") then
        if url.secure then .downgrade else .url (scopy cap loc)
      else if (ascii "//").isPrefixOf loc then
        .url (sappend cap (scopy cap (ascii (if url.secure then "https:" else "http:"))) loc)
      else if 58 ∈ loc.takeWhile (fun c => c ≠ 47 ∧ c ≠ 63 ∧ c ≠ 35) then .unsupported
      else if (ascii "/").isPrefixOf loc then .url (sappend cap (originOf cap url) loc)
      else .url (sappend cap (sappend cap (originOf cap url) (dirOf url.path)) loc)

def redirectCode (c : ℕ) : Bool := c = 301 || c = 302 || c = 303 || c = 307 || c = 308

end Orion.Http
