import Orion.Http.Address
import Orion.Http.Get

/-!
# The request text

The request of an accepted URL always fits its buffer (`httpRequest_eq`).  The bytes of the URL are
copied as they are, so that it is one request exactly when they hold no separator
(`http_request_single_iff`).
-/

namespace Orion.Http

/-! ## Lines -/

/-- The pieces between CR LF. -/
def splitCrlf : List UInt8 → List (List UInt8)
  | [] => [[]]
  | [c] => [[c]]
  | c :: d :: s =>
    if c = cr ∧ d = lf then [] :: splitCrlf s else (splitCrlf (d :: s)).modifyHead (c :: ·)

theorem splitCrlf_cons {c : UInt8} (hc : c ≠ cr) (s : List UInt8) :
    splitCrlf (c :: s) = (splitCrlf s).modifyHead (c :: ·) := by
  cases s with
  | nil => rfl
  | cons d s => rw [splitCrlf, if_neg fun h => hc h.1]

theorem splitCrlf_line {l : List UInt8} (h : cr ∉ l) (s : List UInt8) :
    splitCrlf (l ++ cr :: lf :: s) = l :: splitCrlf s := by
  induction l with
  | nil => rw [List.nil_append, splitCrlf, if_pos ⟨rfl, rfl⟩]
  | cons c l ih =>
    simp only [List.mem_cons, not_or] at h
    rw [List.cons_append, splitCrlf_cons (Ne.symm h.1), ih h.2]
    rfl

/-- The lines put together again. -/
def joinCrlf : List (List UInt8) → List UInt8
  | [] => []
  | [l] => l
  | l :: ls => l ++ cr :: lf :: joinCrlf ls

theorem splitCrlf_ne_nil (s : List UInt8) : splitCrlf s ≠ [] := by
  fun_induction splitCrlf s with
  | case1 => simp
  | case2 => simp
  | case3 => simp
  | case4 c d s _ ih =>
    obtain ⟨l, ls, hls⟩ := List.exists_cons_of_ne_nil ih
    simp [hls]

/-- Splitting loses nothing. -/
theorem joinCrlf_splitCrlf (s : List UInt8) : joinCrlf (splitCrlf s) = s := by
  fun_induction splitCrlf s with
  | case1 => rfl
  | case2 => rfl
  | case3 c d s h ih =>
    obtain ⟨rfl, rfl⟩ := h
    obtain ⟨l, ls, hls⟩ := List.exists_cons_of_ne_nil (splitCrlf_ne_nil s)
    rw [hls] at ih ⊢
    rw [joinCrlf, ih]
    · rfl
    · simp
  | case4 c d s _ ih =>
    obtain ⟨l, ls, hls⟩ := List.exists_cons_of_ne_nil (splitCrlf_ne_nil (d :: s))
    rw [hls] at ih ⊢
    rw [List.modifyHead_cons, ← ih]
    cases ls <;> rfl

/-! ## The text of a request -/

def agentLine : List UInt8 := ascii "User-Agent: UN_Orion/0.0.8 UN_Vela/0.3.2 Aster/0.3.2"

def acceptLine : List UInt8 := ascii "Accept: text/html,text/plain;q=0.9,*/*;q=0.1"

def encodingLine : List UInt8 := ascii "Accept-Encoding: identity"

def connectionLine : List UInt8 := ascii "Connection: close"

/-- The request line, the five header lines and the blank line; nothing follows. -/
def requestLines (path host : List UInt8) : List (List UInt8) :=
  [ascii "GET " ++ path ++ ascii " HTTP/1.0", ascii "Host: " ++ host, agentLine, acceptLine,
    encodingLine, connectionLine, [], []]

/-- The host as the request names it. -/
def hostValue (url : Url) : List UInt8 := url.host ++ portSuffix url.secure url.port

/-- What `parse_url` promises about the sizes. -/
structure Url.Fits (url : Url) : Prop where
  host : url.host.length < hostCap
  port : 0 < url.port ∧ url.port ≤ 65535
  path : url.path.length < pathCap

theorem fits_of_parseUrl {t : List UInt8} {url : Url} (h : parseUrl t = some url) : url.Fits := by
  obtain ⟨a, -, rfl, hpath⟩ := parseUrl_address h
  exact ⟨a.host_length, a.port_ok.range, hpath⟩

theorem sappend_of_le {cap : ℕ} {d s : List UInt8} (h : d.length + s.length < cap) :
    sappend cap d s = d ++ s := by
  rw [sappend, List.take_of_length_le (by omega)]

theorem length_decimal_le : ∀ (fuel v : ℕ), (decimal fuel v).length ≤ fuel := by
  intro fuel
  induction fuel with
  | zero => exact fun _ => Nat.le_refl _
  | succ fuel ih =>
    intro v
    rw [decimal, List.length_append, List.length_singleton]
    split
    · simp
    · have := ih (v / 10)
      omega

/-- The request up to the host. -/
def requestStart (url : Url) : List UInt8 :=
  ascii "GET " ++ url.path ++ ascii " HTTP/1.0\r\nHost: " ++ url.host

/-- The request behind the port. -/
def requestEnd : List UInt8 :=
  ascii ("\r\nUser-Agent: UN_Orion/0.0.8 UN_Vela/0.3.2 Aster/0.3.2\r\n" ++
    "Accept: text/html,text/plain;q=0.9,*/*;q=0.1\r\nAccept-Encoding: identity\r\n" ++
    "Connection: close\r\n\r\n")

theorem length_requestStart_le {url : Url} (h : url.Fits) : (requestStart url).length ≤ 275 := by
  have hhost := h.host
  have hpath := h.path
  have hget : (ascii "GET ").length = 4 := by decide
  have hmid : (ascii " HTTP/1.0\r\nHost: ").length = 17 := by decide
  have hcap : hostCap = 96 ∧ pathCap = 160 := ⟨rfl, rfl⟩
  simp only [requestStart, List.length_append]
  omega

theorem sappend_requestStart {url : Url} (h : url.Fits) :
    sappend requestCap (sappend requestCap (sappend requestCap (sappend requestCap []
      (ascii "GET ")) url.path) (ascii " HTTP/1.0\r\nHost: ")) url.host = requestStart url := by
  have hlen := length_requestStart_le h
  have hcap : requestCap = 768 := rfl
  simp only [requestStart, List.length_append] at hlen
  have hget : sappend requestCap [] (ascii "GET ") = ascii "GET " := rfl
  have hpath : sappend requestCap (ascii "GET ") url.path = ascii "GET " ++ url.path :=
    sappend_of_le (by omega)
  rw [hget, hpath, sappend_of_le (d := ascii "GET " ++ url.path) (by rw [List.length_append]; omega)]
  exact sappend_of_le (by simp only [List.length_append]; omega)

theorem length_portDigits_le (port : ℕ) : (portDigits port).length ≤ 5 := length_decimal_le 5 port

theorem httpRequest_port {url : Url} (h : url.Fits) :
    (if url.port ≠ (if url.secure then 443 else 80) ∧ (requestStart url).length + 7 < requestCap then
      sappend requestCap (requestStart url ++ ascii ":") (portDigits url.port)
    else requestStart url) = requestStart url ++ portSuffix url.secure url.port := by
  have hlen := length_requestStart_le h
  have hdigits := length_portDigits_le url.port
  have hcap : requestCap = 768 := rfl
  have hcolon : (ascii ":").length = 1 := rfl
  unfold portSuffix
  by_cases hport : url.port ≠ (if url.secure then 443 else 80)
  · rw [if_pos ⟨hport, by omega⟩, if_pos (show url.port ≠ defaultPort url.secure from hport),
      sappend_of_le (by rw [List.length_append]; omega), List.append_assoc]
    rfl
  · rw [if_neg (fun h => hport h.1), if_neg (show ¬ url.port ≠ defaultPort url.secure from hport),
      List.append_nil]

/-- What follows the host is the rest of the request's lines. -/
theorem requestEnd_eq :
    requestEnd = cr :: lf :: joinCrlf [agentLine, acceptLine, encodingLine, connectionLine, [], []] := by
  rw [requestEnd, agentLine, acceptLine, encodingLine, connectionLine, ascii_append, ascii_append]
  rw [ascii_ofList, ascii_ofList, ascii_ofList, ascii_ofList, ascii_ofList, ascii_ofList, ascii_ofList]
  decide +kernel

theorem length_requestEnd : requestEnd.length = 150 := by
  rw [requestEnd, ascii_append, ascii_append, ascii_ofList, ascii_ofList, ascii_ofList]
  decide +kernel

/-- **The request of an accepted URL is never cut.** -/
theorem httpRequest_eq {url : Url} (h : url.Fits) :
    httpRequest url = joinCrlf (requestLines url.path (hostValue url)) := by
  have hlen := length_requestStart_le h
  have hend := length_requestEnd
  have hcap : requestCap = 768 := rfl
  have hsuffix : (portSuffix url.secure url.port).length ≤ 6 := by
    have hdigits := length_portDigits_le url.port
    unfold portSuffix
    split
    · rw [List.length_cons]
      omega
    · simp
  have hrequest : httpRequest url
      = requestStart url ++ portSuffix url.secure url.port ++ requestEnd := by
    unfold httpRequest
    simp only [sappend_requestStart h]
    rw [httpRequest_port h]
    exact sappend_of_le (s := requestEnd) (by rw [List.length_append, hend]; omega)
  rw [hrequest, requestEnd_eq]
  simp only [requestStart, requestLines, hostValue, joinCrlf, List.append_assoc]
  rfl

/-! ## One request -/

/-- The bytes are exactly one request, with a path that holds no blank and no line end. -/
def OneRequest (bytes : List UInt8) : Prop :=
  ∃ path host, splitCrlf bytes = requestLines path host ∧
    (∀ c ∈ path, c ≠ 32 ∧ c ≠ cr ∧ c ≠ lf) ∧ ∀ c ∈ host, c ≠ cr ∧ c ≠ lf

theorem splitCrlf_requestLines {path host : List UInt8} (hpath : cr ∉ path) (hhost : cr ∉ host) :
    splitCrlf (joinCrlf (requestLines path host)) = requestLines path host := by
  have h1 : cr ∉ ascii "GET " ++ path ++ ascii " HTTP/1.0" := by
    simp only [List.mem_append, not_or]
    exact ⟨⟨by decide, hpath⟩, by decide⟩
  have h2 : cr ∉ ascii "Host: " ++ host := by
    simp only [List.mem_append, not_or]
    exact ⟨by decide, hhost⟩
  have h3 : splitCrlf (joinCrlf [agentLine, acceptLine, encodingLine, connectionLine, [], []])
      = [agentLine, acceptLine, encodingLine, connectionLine, [], []] := by
    rw [agentLine, acceptLine, encodingLine, connectionLine]
    rw [ascii_ofList, ascii_ofList, ascii_ofList, ascii_ofList]
    decide +kernel
  rw [requestLines, joinCrlf, splitCrlf_line h1, joinCrlf, splitCrlf_line h2, h3]
  · simp
  · simp

/-- In a request line and a host without carriage returns, path and host can be told apart. -/
theorem requestLines_inj {path host path' host' : List UInt8} (hpath : cr ∉ path) (hhost : cr ∉ host)
    (h : joinCrlf (requestLines path host) = joinCrlf (requestLines path' host')) :
    path = path' ∧ host = host' := by
  have hjoin : ∀ p q : List UInt8, joinCrlf (requestLines p q) = ascii "GET " ++ (p ++
      ascii " HTTP/1.0" ++ ([cr, lf] ++ ascii "Host: ") ++ q) ++ ([cr, lf] ++ joinCrlf
        [agentLine, acceptLine, encodingLine, connectionLine, [], []]) := by
    intro p q
    simp only [requestLines, joinCrlf, List.append_assoc]
    rfl
  rw [hjoin, hjoin] at h
  have hmid := List.append_cancel_left (List.append_cancel_right h)
  -- the only carriage return stands behind the version
  have hcr : cr ∉ path' := by
    intro hmem
    have hcount := congrArg (List.count cr) hmid
    simp only [List.count_append, List.count_eq_zero_of_not_mem hpath,
      List.count_eq_zero_of_not_mem hhost] at hcount
    have hpos := List.count_pos_iff.mpr hmem
    omega
  have hline : ∀ p q : List UInt8, cr ∉ p →
      (p ++ ascii " HTTP/1.0" ++ ([cr, lf] ++ ascii "Host: ") ++ q).takeWhile (· ≠ cr)
        = p ++ ascii " HTTP/1.0" := by
    intro p q hp
    have hall : ∀ c ∈ p ++ ascii " HTTP/1.0", decide (c ≠ cr) = true := by
      intro c hc
      simp only [ne_eq, decide_not, Bool.not_eq_true', decide_eq_false_iff_not]
      rintro rfl
      rcases List.mem_append.mp hc with hc | hc
      · exact hp hc
      · exact absurd hc (by decide)
    rw [List.append_assoc (p ++ _), List.takeWhile_append_of_pos hall]
    simp [cr]
  have hp : path = path' := by
    have := congrArg (List.takeWhile (· ≠ cr)) hmid
    rw [hline _ _ hpath, hline _ _ hcr] at this
    exact List.append_cancel_right this
  subst hp
  exact ⟨rfl, List.append_cancel_left hmid⟩

theorem portSuffix_plain (secure : Bool) {port : ℕ} (h : port ≤ 65535) :
    ∀ c ∈ portSuffix secure port, c ≠ cr ∧ c ≠ lf := by
  intro c hc
  unfold portSuffix at hc
  split at hc
  · rcases List.mem_cons.mp hc with rfl | hc
    · decide
    · have hdigit := isDigit_of_numeral (portDigits_numeral h) c hc
      constructor <;> rintro rfl <;> exact absurd hdigit (by decide)
  · simp at hc

/-- **When a URL makes exactly one request.**  For every URL that `parse_url` accepts, the bytes that
are sent are one request with all its lines exactly when the path holds no blank and no line end and
the host no line end. -/
theorem http_request_single_iff {t : List UInt8} {url : Url} (hurl : parseUrl t = some url) :
    OneRequest (httpRequest url) ↔
      (∀ c ∈ url.path, c ≠ 32 ∧ c ≠ cr ∧ c ≠ lf) ∧ ∀ c ∈ url.host, c ≠ cr ∧ c ≠ lf := by
  have hfits := fits_of_parseUrl hurl
  rw [httpRequest_eq hfits]
  constructor
  · rintro ⟨path, host, hsplit, hpath, hhost⟩
    have hjoin := congrArg joinCrlf hsplit
    rw [joinCrlf_splitCrlf] at hjoin
    obtain ⟨rfl, rfl⟩ := requestLines_inj (fun h => (hpath cr h).2.1 rfl)
      (fun h => (hhost cr h).1 rfl) hjoin.symm
    exact ⟨hpath, fun c hc => hhost c (List.mem_append_left _ hc)⟩
  · rintro ⟨hpath, hhost⟩
    have hvalue : ∀ c ∈ hostValue url, c ≠ cr ∧ c ≠ lf := by
      intro c hc
      rcases List.mem_append.mp hc with hc | hc
      · exact hhost c hc
      · exact portSuffix_plain url.secure hfits.port.2 c hc
    exact ⟨url.path, hostValue url, splitCrlf_requestLines (fun h => (hpath cr h).2.1 rfl)
      (fun h => (hvalue cr h).1 rfl), hpath, hvalue⟩

theorem http_request_single_smoke : OneRequest (httpRequest ⟨false, ascii "h", 8080, ascii "/a"⟩) :=
  (http_request_single_iff (t := ascii "http://h:8080/a") (by decide)).mpr
    ⟨by decide +kernel, by decide +kernel⟩

/-- A line end in the URL starts another line of the request. -/
theorem http_request_injected :
    ∃ url, parseUrl (ascii "http://h/\r\nX: y") = some url ∧ ¬ OneRequest (httpRequest url) := by
  refine ⟨⟨false, ascii "h", 80, ascii "/\r\nX: y"⟩, by decide, ?_⟩
  rintro ⟨path, host, hsplit, -⟩
  have hlines : (splitCrlf (httpRequest ⟨false, ascii "h", 80, ascii "/\r\nX: y"⟩)).length = 9 := by
    decide +kernel
  rw [hsplit] at hlines
  simp [requestLines] at hlines

end Orion.Http
