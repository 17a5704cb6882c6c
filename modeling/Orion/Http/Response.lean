import Orion.Http.Url

/-!
# Responses (`kernel/net.c`)

What `net_http_get` does with the bytes of a response: the end of the header, the status, a header
field, and the body with its two framings.
-/

namespace Orion.Http

/-- The end of the header and the start of the body. -/
structure Boundary where
  headEnd : ℕ
  bodyOff : ℕ
  deriving Repr, DecidableEq

/-- The search for the blank line, in `net_http_get` and in `header_boundary` of `tls.c`. -/
def headerBoundary (b : List UInt8) : Option Boundary :=
  match findSub [cr, lf, cr, lf] b with
  | some i => some ⟨i, i + 4⟩
  | none =>
    match findSub [lf, lf] b with
    | some i => some ⟨i, i + 2⟩
    | none => none

/-- The status code, or 0. -/
def httpStatusCode (head : List UInt8) : ℕ :=
  match (head.dropWhile (· ≠ 32)).dropWhile (· = 32) with
  | a :: b :: c :: _ =>
    if isDigit a ∧ isDigit b ∧ isDigit c then digitVal a * 100 + digitVal b * 10 + digitVal c else 0
  | _ => 0

/-- Does the needle occur, up to case? -/
def containsCi (s needle : List UInt8) : Bool :=
  needle ≠ [] && (findSub (needle.map lowerAscii) (s.map lowerAscii)).isSome

def isLineEnd (c : UInt8) : Bool := c = cr || c = lf

/-- The lines behind the first one; here a line ends at a carriage return as well. -/
def fieldLines (head : List UInt8) : List (List UInt8) :=
  (((head.dropWhile (· ≠ lf)).drop 1).splitOnP isLineEnd).filter (· ≠ [])

/-- A buffer read as a C string. -/
def cstr (s : List UInt8) : List UInt8 := s.takeWhile (· ≠ 0)

/-- The value of the first field of that name, cut to a buffer of `cap` bytes, as a C string. -/
def headerValueCi (head name : List UInt8) (cap : ℕ) : Option (List UInt8) :=
  (fieldLines head).findSome? fun line =>
    match splitColon line with
    | none => none
    | some (field, value) => if eqCi field name then some (cstr (scopy cap (trim value))) else none

def parseSizeDec (s : List UInt8) : Option ℕ :=
  match takeNumber decDigit 10 0x1000000 s 0 0 with
  | some (v, n, []) => if n = 0 then none else some v
  | _ => none

/-! ## Chunked bodies -/

/-- The size at the start of a chunk, up to the end of its line or to the extension. -/
def chunkSize (s : List UInt8) : Option (ℕ × List UInt8) :=
  match takeNumber hexDigit 16 0x100000 s 0 0 with
  | none => none
  | some (size, digits, rest) =>
    let rest := if rest.head? = some 59 then rest.dropWhile (! isLineEnd ·) else rest
    if digits = 0 ∨ (rest.head?.any fun c => ! isLineEnd c) then none else some (size, rest)

/-- One carriage return and one line feed are skipped if they are there. -/
def skipLineEnd (s : List UInt8) : List UInt8 :=
  let s := if s.head? = some cr then s.drop 1 else s
  if s.head? = some lf then s.drop 1 else s

/-- The loop of `decode_chunked`; `out` is what has been decoded, and malformed input gives nothing.
Each turn consumes at least one byte. -/
def decodeLoop (cap : ℕ) : ℕ → List UInt8 → List UInt8 → List UInt8
  | 0, _, out => out
  | fuel + 1, s, out =>
    if s = [] then out
    else
      match chunkSize s with
      | none => []
      | some (size, s) =>
        let s := skipLineEnd s
        if size = 0 then out
        else if size > s.length then []
        else
          decodeLoop cap fuel (skipLineEnd (s.drop size))
            (out ++ (s.take size).take (cap - 1 - out.length))

def decodeChunked (s : List UInt8) (cap : ℕ) : List UInt8 :=
  if cap = 0 then [] else decodeLoop cap s.length s []

/-! ## The body -/

/-- A UTF-8 byte-order mark is skipped. -/
def stripBom (s : List UInt8) : List UInt8 := if [0xEF, 0xBB, 0xBF].isPrefixOf s then s.drop 3 else s

/-- The body of a response, in a buffer of `cap` bytes, given the header and the bytes behind it. -/
def extractBody (head src : List UInt8) (cap : ℕ) : Except String (List UInt8) :=
  let src := stripBom src
  if containsCi head (ascii "transfer-encoding: chunked") then
    let out := decodeChunked src cap
    if out = [] ∧ src ≠ [] then .error "Invalid chunked response" else .ok out
  else
    match headerValueCi head (ascii "Content-Length") 32 with
    | none => .ok (src.take (cap - 1))
    | some text =>
      match parseSizeDec text with
      | none => .error "Invalid Content-Length"
      | some expected =>
        if src.length < expected then .error "Truncated HTTP body"
        else .ok ((src.take expected).take (cap - 1))

end Orion.Http
