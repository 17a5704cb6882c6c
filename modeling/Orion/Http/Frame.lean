import Orion.Http.Response
import Orion.Machine

/-!
# Framing (`kernel/tls.c`)

`http_frame_complete` looks at the bytes that have arrived so far and says whether they hold a whole
message.  It finds the header and scans its fields a second time, with rules of its own: the codings
of `Transfer-Encoding` are taken apart as a list, a size line may hold blanks, and a line ends with a
line feed only.  `br_sslio_read` is the list of the sizes of the reads that succeed.
-/

namespace Orion.Http

/-- -1, 0 and 1. -/
inductive Frame where
  | malformed
  | incomplete
  | complete
  deriving Repr, DecidableEq

/-! ## The header -/

def parseStatus (head : List UInt8) : Option ℕ :=
  match (head.dropWhile fun c => c ≠ 32 ∧ c ≠ cr ∧ c ≠ lf).dropWhile (· = 32) with
  | a :: b :: c :: _ =>
    if isDigit a ∧ isDigit b ∧ isDigit c then
      some (digitVal a * 100 + digitVal b * 10 + digitVal c)
    else none
  | _ => none

/-- What ends the name of a coding. -/
def isCodingEnd (c : UInt8) : Bool := c = 44 || c = 59 || isBlank c

/-- The loop of `value_has_chunked`; each turn consumes at least one byte. -/
def chunkedLoop : ℕ → List UInt8 → Bool
  | 0, _ => false
  | fuel + 1, s =>
    if s = [] then false
    else
      let s := s.dropWhile fun c => isBlank c || c = 44
      let coding := s.takeWhile (! isCodingEnd ·)
      if eqCi coding (ascii "chunked") then true
      else chunkedLoop fuel ((s.drop coding.length).dropWhile (· ≠ 44))

def valueHasChunked (s : List UInt8) : Bool := chunkedLoop s.length s

/-- The largest value of `size_t`. -/
def sizeMax (arch : Arch) : ℕ := 2 ^ arch.sizeBits - 1

def parseDec (arch : Arch) (s : List UInt8) : Option ℕ :=
  match takeNumber decDigit 10 (sizeMax arch) (s.dropWhile isBlank) 0 0 with
  | none => none
  | some (v, digits, rest) => if digits = 0 ∨ rest.dropWhile isBlank ≠ [] then none else some v

/-- A line without one carriage return at its end. -/
def stripCr (line : List UInt8) : List UInt8 :=
  if line.getLast? = some cr then line.dropLast else line

/-- What the fields say about the body. -/
structure Framing where
  chunked : Bool
  contentLen : Option ℕ
  deriving Repr, DecidableEq

/-- One turn of the loop over the fields. -/
def scanField (arch : Arch) (f : Framing) (line : List UInt8) : Option Framing :=
  match splitColon line with
  | none => some f
  | some (name, value) =>
    let name := name.rdropWhile isBlank
    let value := trim value
    if eqCi name (ascii "Transfer-Encoding") then
      some { f with chunked := f.chunked || valueHasChunked value }
    else if eqCi name (ascii "Content-Length") then
      match parseDec arch value with
      | none => none
      | some v => if f.contentLen.any (· ≠ v) then none else some { f with contentLen := some v }
    else some f

def scanFields (arch : Arch) (lines : List (List UInt8)) : Option Framing :=
  lines.foldlM (scanField arch) ⟨false, none⟩

def scanHeader (arch : Arch) (head : List UInt8) : Option Framing :=
  scanFields arch ((splitLines head).tail.map stripCr)

/-! ## Chunked bodies -/

/-- The next line, if its line feed is there, and the rest. -/
def takeLine (s : List UInt8) : Option (List UInt8 × List UInt8) :=
  match s.dropWhile (· ≠ lf) with
  | [] => none
  | _ :: rest => some (stripCr (s.takeWhile (· ≠ lf)), rest)

/-- The size that a size line gives. -/
def lineSize (arch : Arch) (line : List UInt8) : Option ℕ :=
  match takeNumber hexDigit 16 (sizeMax arch) (line.dropWhile isBlank) 0 0 with
  | none => none
  | some (size, digits, rest) =>
    if digits = 0 ∨ ((rest.dropWhile isBlank).head?.any (· ≠ 59)) then none else some size

/-- The trailer lines, up to the empty one. -/
def trailerComplete : ℕ → List UInt8 → Frame
  | 0, _ => .incomplete
  | fuel + 1, s =>
    match takeLine s with
    | none => .incomplete
    | some (line, rest) => if line = [] then .complete else trailerComplete fuel rest

/-- The line end behind the data of a chunk: -1, 0 or the rest. -/
def dataEnd : List UInt8 → Except Frame (List UInt8)
  | [] => .error .incomplete
  | c :: s =>
    if c = cr then
      match s with
      | [] => .error .incomplete
      | d :: s => if d = lf then .ok s else .error .malformed
    else if c = lf then .ok s
    else .error .malformed

/-- The loop of `chunked_complete`; each turn consumes at least one byte. -/
def chunkedLines (arch : Arch) : ℕ → List UInt8 → Frame
  | 0, _ => .incomplete
  | fuel + 1, s =>
    match takeLine s with
    | none => .incomplete
    | some (line, rest) =>
      match lineSize arch line with
      | none => .malformed
      | some size =>
        if size = 0 then trailerComplete rest.length rest
        else if size > rest.length then .incomplete
        else
          match dataEnd (rest.drop size) with
          | .error frame => frame
          | .ok rest => chunkedLines arch fuel rest

def chunkedComplete (arch : Arch) (s : List UInt8) : Frame := chunkedLines arch s.length s

/-! ## The frame -/

def httpFrameComplete (arch : Arch) (b : List UInt8) : Frame :=
  match headerBoundary b with
  | none => .incomplete
  | some bd =>
    let head := b.take bd.headEnd
    match parseStatus head with
    | none => .malformed
    | some code =>
      if code = 204 ∨ code = 304 then .complete
      else
        match scanHeader arch head with
        | none => .malformed
        | some f =>
          if f.chunked then chunkedComplete arch (b.drop bd.bodyOff)
          else
            match f.contentLen with
            | none => .incomplete
            | some contentLen =>
              if contentLen > sizeMax arch - bd.bodyOff then .malformed
              else if b.length ≥ bd.bodyOff + contentLen then .complete
              else .incomplete

/-! ## The read loop of `tls_https_exchange` -/

/-- How the read loop ends: the buffer is full, the framing is malformed, a message is complete, or a
read fails.  The last two leave the bytes in the buffer. -/
inductive ReadEnd where
  | tooLarge
  | malformed
  | framed (response : List UInt8)
  | closed (response : List UInt8)
  deriving Repr, DecidableEq

/-- The loop, with the sizes of the reads, the stream behind what was read, and the buffer.  A read
gives at most what the buffer has room for; behind the last one a read fails. -/
def readLoop (arch : Arch) (cap : ℕ) : List ℕ → List UInt8 → List UInt8 → ReadEnd
  | [], _, used => if used.length + 1 ≥ cap then .tooLarge else .closed used
  | n :: reads, stream, used =>
    if used.length + 1 ≥ cap then .tooLarge
    else
      let n := min n (cap - 1 - used.length)
      let used := used ++ stream.take n
      match httpFrameComplete arch used with
      | .malformed => .malformed
      | .complete => .framed used
      | .incomplete => readLoop arch cap reads (stream.drop n) used

end Orion.Http
