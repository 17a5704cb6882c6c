import Orion.Http.Response
import Orion.Net.Client

/-!
# `net_http_get` (`kernel/net.c`) and `canon` (`kernel/vela.c`)

One call fetches a URL and follows up to three redirects.  A request goes out through
`tls_https_exchange` or over a plain TCP connection; both are on the record (`Request`) in the order
in which they are started.  What the TLS library does is a parameter: in each hop it fails with a
status text or gives the bytes of a response.
-/

namespace Orion.Http

open Orion.Net (State netTcpConnect netTcpWrite netTcpRead netTcpClose)

/-- A request that is started: through TLS or not, to which host and port, with which bytes. -/
structure Request where
  secure : Bool
  host : List UInt8
  port : ℕ
  bytes : List UInt8
  deriving Repr, DecidableEq

/-- `tls_https_exchange` in a hop: host, port and request to a status text or a response. -/
abbrev TlsExchange :=
  ℕ → List UInt8 → ℕ → List UInt8 → State → Option (Except (List UInt8) (List UInt8) × State)

/-! ## One exchange -/

def requestCap : ℕ := 768

def responseCap : ℕ := 32768

/-- The request text; each piece is cut at the end of the buffer. -/
def httpRequest (url : Url) : List UInt8 :=
  let req := sappend requestCap [] (ascii "GET ")
  let req := sappend requestCap req url.path
  let req := sappend requestCap req (ascii " HTTP/1.0\r\nHost: ")
  let req := sappend requestCap req url.host
  let req :=
    if url.port ≠ (if url.secure then 443 else 80) ∧ req.length + 7 < requestCap then
      sappend requestCap (req ++ ascii ":") (portDigits url.port)
    else req
  sappend requestCap req (ascii ("\r\nUser-Agent: UN_Orion/0.0.8 UN_Vela/0.3.2 Aster/0.3.2\r\n" ++
    "Accept: text/html,text/plain;q=0.9,*/*;q=0.1\r\nAccept-Encoding: identity\r\n" ++
    "Connection: close\r\n\r\n"))

section

variable (w : World)

/-- Read until the connection ends, is silent for too long, or the buffer is full. -/
def readAll (readFuel : ℕ) : ℕ → List UInt8 → State → Option (List UInt8 × State)
  | 0, _, _ => none
  | fuel + 1, raw, s =>
    if raw.length + 1 < responseCap then do
      let (data, s) ← netTcpRead w readFuel (responseCap - 1 - raw.length) 1400 s
      match data with
      | none => some (raw, s)
      | some data => readAll readFuel fuel (raw ++ data) s
    else some (raw, s)

/-- The plain TCP branch of a hop. -/
def plainExchange (fuel : ℕ) (host : List UInt8) (port : ℕ) (request : List UInt8) (s : State) :
    Option (Except (List UInt8) (List UInt8) × State) := do
  let (connected, s) ← netTcpConnect w fuel host port s
  match connected with
  | .error status => some (.error (ascii status), s)
  | .ok () => do
    let (written, s) ← netTcpWrite w fuel request 5000 s
    if written = false then do
      let s ← netTcpClose w fuel s
      some (.error (ascii "HTTP write failed"), s)
    else do
      let (raw, s) ← readAll w fuel fuel [] s
      let s ← netTcpClose w fuel s
      if raw = [] then some (.error (ascii "No HTTP data"), s) else some (.ok raw, s)

/-! ## The response -/

/-- What a response means for the call: it ends with a status text, it ends with a body, or there is
another hop. -/
inductive Verdict where
  | failed (status : List UInt8)
  | done (status body : List UInt8)
  | follow (next : List UInt8)
  deriving Repr, DecidableEq

/-- The status text is cut to the caller's buffer. -/
def Verdict.cutStatus (statusCap : ℕ) : Verdict → Verdict
  | .failed status => .failed (scopy statusCap status)
  | .done status body => .done (scopy statusCap status) body
  | .follow next => .follow next

def locationCap : ℕ := 256

/-- The redirect branch; `last` says that no further hop is allowed. -/
def httpRedirect (current head : List UInt8) (last : Bool) : Verdict :=
  match headerValueCi head (ascii "Location") locationCap with
  | none => .failed (ascii "Redirect missing Location")
  | some loc =>
    if last then .failed (ascii "Too many redirects")
    else
      match resolveRedirect current loc locationCap with
      | .downgrade => .failed (ascii "Refusing HTTPS downgrade")
      | .unsupported => .failed (ascii "Unsupported redirect URL")
      | .url next => .follow next

def httpResponse (current raw : List UInt8) (last : Bool) (cap : ℕ) : Verdict :=
  match headerBoundary raw with
  | none => .failed (ascii "Malformed HTTP response")
  | some bd =>
    let head := raw.take bd.headEnd
    if redirectCode (httpStatusCode head) then httpRedirect current head last
    else
      match extractBody head (raw.drop bd.bodyOff) cap with
      | .error status => .failed (ascii status)
      | .ok body => .done (raw.takeWhile (! isLineEnd ·)) body

/-- What is extracted, as the result of the call. -/
def verdictOf (status : List UInt8) : Except String (List UInt8) → Verdict
  | .error e => .failed (ascii e)
  | .ok body => .done status body

/-- A response whose header is found, and that is no redirect, comes down to the extraction. -/
theorem httpResponse_of_boundary {current raw : List UInt8} {last : Bool} {cap : ℕ} {bd : Boundary}
    (hbd : headerBoundary raw = some bd)
    (hcode : redirectCode (httpStatusCode (raw.take bd.headEnd)) = false) :
    httpResponse current raw last cap = verdictOf (raw.takeWhile (! isLineEnd ·))
      (extractBody (raw.take bd.headEnd) (raw.drop bd.bodyOff) cap) := by
  rw [httpResponse, hbd]
  simp only [hcode, Bool.false_eq_true, if_false]
  cases extractBody (raw.take bd.headEnd) (raw.drop bd.bodyOff) cap <;> rfl

/-! ## The call -/

/-- A hop's exchange: through TLS for a secure URL, else over plain TCP. -/
def exchange (tls : TlsExchange) (fuel hops : ℕ) (url : Url) (request : List UInt8) (s : State) :
    Option (Except (List UInt8) (List UInt8) × State) :=
  if url.secure then tls hops url.host url.port request s
  else plainExchange w fuel url.host url.port request s

/-- The `for` loop of `net_http_get`: `hops` is the number of hops left, `log` the requests so far. -/
def getLoop (tls : TlsExchange) (fuel cap : ℕ) :
    ℕ → List UInt8 → List Request → State → Option (Verdict × List Request × State)
  | 0, _, log, s => some (.failed (ascii "Too many redirects"), log, s)
  | hops + 1, current, log, s =>
    match parseUrl current with
    | none => some (.failed (ascii "Invalid URL"), log, s)
    | some url => do
      let request := httpRequest url
      let log := log ++ [⟨url.secure, url.host, url.port, request⟩]
      let (raw, s) ← exchange w tls fuel (hops + 1) url request s
      match raw with
      | .error status => some (.failed status, log, s)
      | .ok raw =>
        match httpResponse current raw (hops = 0) cap with
        | .follow next => getLoop tls fuel cap hops (scopy locationCap next) log s
        | verdict => some (verdict, log, s)

/-- The result of a call with its record of requests. -/
def netHttpGet (tls : TlsExchange) (fuel : ℕ) (url : List UInt8) (cap statusCap : ℕ) (s : State) :
    Option (Verdict × List Request × State) :=
  if s.ready = false ∨ cap < 2 then some (.failed [], [], s)
  else
    (getLoop w tls fuel cap 4 (scopy locationCap url) [] s).map fun r =>
      (r.1.cutStatus statusCap, r.2)

end

/-! ## Vela's addresses -/

/-- The address that `canon` passes on, in a buffer of `cap` bytes; `tls` says whether the platform
has a TLS provider. -/
def canon (tls : Bool) (u : List UInt8) (cap : ℕ) : Option (List UInt8) :=
  if cap < 9 then none
  else
    let u := u.dropWhile isBlank
    if u = [] then none
    else if startsCi u (ascii "https://") then if tls then some (scopy cap u) else none
    else if startsCi u (ascii "http://") then some (scopy cap u)
    else if startsCi u (ascii "file:") ∨ startsCi u (ascii "data:") ∨ startsCi u (ascii "mailto:") then
      none
    else if startsCi u (ascii "javascript:") then none
    else some (sappend cap (scopy cap (ascii "http://")) u)

end Orion.Http
