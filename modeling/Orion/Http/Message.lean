import Orion.Http.Frame

/-!
# Well-formed responses

The responses that a server may send, as a grammar of its own: a status line, fields, and a body of
the length that `Content-Length` gives, or in chunks with extensions and a trailer.  A value of
`Message` is well formed by construction, and `Message.bytes` is what goes over the wire.
-/

namespace Orion.Http

def crlf : List UInt8 := [cr, lf]

/-- Neither a carriage return nor a line feed inside. -/
def OneLine (s : List UInt8) : Prop := ∀ c ∈ s, c ≠ cr ∧ c ≠ lf

instance (s : List UInt8) : Decidable (OneLine s) := List.decidableBAll _ s

/-! ## Lines -/

/-- A field or trailer line. -/
structure Line where
  bytes : List UInt8
  nonempty : bytes ≠ []
  oneLine : OneLine bytes

/-- Version, three digits and whatever follows them in the line. -/
structure StatusLine where
  version : List UInt8
  gap : ℕ
  hundreds : UInt8
  tens : UInt8
  ones : UInt8
  reason : List UInt8
  version_ok : OneLine version ∧ 32 ∉ version
  digits : isDigit hundreds = true ∧ isDigit tens = true ∧ isDigit ones = true
  reason_ok : OneLine reason

def StatusLine.bytes (l : StatusLine) : List UInt8 :=
  l.version ++ (32 :: List.replicate l.gap 32 ++ (l.hundreds :: l.tens :: l.ones :: l.reason))

def StatusLine.code (l : StatusLine) : ℕ :=
  digitVal l.hundreds * 100 + digitVal l.tens * 10 + digitVal l.ones

/-! ## Fields -/

/-- `line` is a field of that name with that value; blanks around the value do not count. -/
def IsField (name : String) (line value : List UInt8) : Prop :=
  ∃ field gap before after, line = field ++ gap ++ 58 :: (before ++ value ++ after) ∧
    eqCi field (ascii name) = true ∧ Blanks gap ∧ Blanks before ∧ Blanks after ∧
    (∀ c ∈ value.head?, isBlank c = false) ∧ ∀ c ∈ value.getLast?, isBlank c = false

/-- A list of codings, separated by commas, with `chunked` among them; a coding may have parameters
behind a semicolon. -/
def NamesChunked (value : List UInt8) : Prop :=
  ∃ e ∈ value.splitOn 44, ∃ gap coding rest, e = gap ++ coding ++ rest ∧ Blanks gap ∧
    eqCi coding (ascii "chunked") = true ∧ ∀ c ∈ rest.head?, c = 59 ∨ isBlank c = true

/-- Some `Transfer-Encoding` names the coding `chunked`. -/
def IsChunked (fields : List Line) : Prop :=
  ∃ l ∈ fields, ∃ v, IsField "Transfer-Encoding" l.bytes v ∧ NamesChunked v

def HasContentLength (fields : List Line) : Prop :=
  ∃ l ∈ fields, ∃ v, IsField "Content-Length" l.bytes v

/-- Every `Content-Length` is a numeral of `n`. -/
def ContentLengthIs (fields : List Line) (n : ℕ) : Prop :=
  ∀ l ∈ fields, ∀ v, IsField "Content-Length" l.bytes v → IsNumeral decDigit 10 v n

/-! ## Bodies -/

/-- A size line: hexadecimal digits and an extension that starts with a semicolon. -/
structure SizeLine (size : ℕ) where
  digits : List UInt8
  ext : List UInt8
  numeral : IsNumeral hexDigit 16 digits size
  ext_ok : ext = [] ∨ ∃ gap e, ext = gap ++ 59 :: e ∧ Blanks gap
  oneLine : OneLine ext

def SizeLine.bytes {size : ℕ} (l : SizeLine size) : List UInt8 := l.digits ++ l.ext

structure Chunk where
  data : List UInt8
  nonempty : data ≠ []
  size : SizeLine data.length

def Chunk.bytes (c : Chunk) : List UInt8 := c.size.bytes ++ crlf ++ (c.data ++ crlf)

inductive Body where
  | sized (bytes : List UInt8)
  | chunked (chunks : List Chunk) (last : SizeLine 0) (trailer : List Line)

/-- Lines, each with its line end, and an empty line. -/
def linesBytes (lines : List Line) : List UInt8 := lines.flatMap (fun l => l.bytes ++ crlf) ++ crlf

/-- Chunks, the last size line and the trailer. -/
def chunksBytes (chunks : List Chunk) (last : SizeLine 0) (trailer : List Line) : List UInt8 :=
  chunks.flatMap Chunk.bytes ++ (last.bytes ++ crlf ++ linesBytes trailer)

def Body.bytes : Body → List UInt8
  | .sized bytes => bytes
  | .chunked chunks last trailer => chunksBytes chunks last trailer

/-- The fields announce the body. -/
def Body.FramedBy (fields : List Line) : Body → Prop
  | .sized bytes =>
    HasContentLength fields ∧ ContentLengthIs fields bytes.length ∧ ¬ IsChunked fields
  | .chunked _ _ _ => IsChunked fields ∧ ∃ n, ContentLengthIs fields n

/-! ## Messages -/

structure Message where
  status : StatusLine
  fields : List Line
  body : Body
  hasBody : status.code ≠ 204 ∧ status.code ≠ 304
  framed : body.FramedBy fields

/-- The header without the empty line. -/
def Message.headBytes (m : Message) : List UInt8 :=
  crlf.intercalate (m.status.bytes :: m.fields.map Line.bytes)

def Message.bytes (m : Message) : List UInt8 := m.headBytes ++ (crlf ++ crlf) ++ m.body.bytes

/-- The length of the message and the value of a `Content-Length` fit `size_t`. -/
def Message.Fits (m : Message) (arch : Arch) : Prop :=
  m.bytes.length ≤ sizeMax arch ∧ ∃ n, ContentLengthIs m.fields n ∧ n ≤ sizeMax arch

end Orion.Http
