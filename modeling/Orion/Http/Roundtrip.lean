import Orion.Http.Get
import Orion.Http.Sized

/-!
# Bodies with a `Content-Length`

`net_http_get` is to deliver the body of a `SizedResponse` and to refuse it if it is cut short
(`RoundTrips`), in every call in which the response arrives, perhaps behind redirects (`Reaches`).  It does
so exactly for the responses that are `Plain`; what the others have is read in another way than it is meant.
-/

namespace Orion.Http

open Orion.Net (State)

/-! ## Calls in which a response arrives -/

section

variable (w : World) (tls : TlsExchange) (fuel cap : ℕ) (raw : List UInt8)

/-- A hop is answered with the bytes `raw`: this one, or a later one behind a redirect. -/
inductive Reaches : ℕ → List UInt8 → State → Prop
  | here {hops : ℕ} {current : List UInt8} {s t : State} {url : Url} (hurl : parseUrl current = some url)
      (hraw : exchange w tls fuel (hops + 1) url (httpRequest url) s = some (.ok raw, t)) :
      Reaches (hops + 1) current s
  | next {hops : ℕ} {current other next : List UInt8} {s t : State} {url : Url}
      (hurl : parseUrl current = some url)
      (hraw : exchange w tls fuel (hops + 1) url (httpRequest url) s = some (.ok other, t))
      (hfollow : httpResponse current other (hops = 0) cap = .follow next)
      (h : Reaches hops (scopy locationCap next) t) : Reaches (hops + 1) current s

end

/-- Every call in which `raw` arrives ends with a result that satisfies `P`. -/
def Returns (raw : List UInt8) (cap : ℕ) (P : Verdict → Prop) : Prop :=
  ∀ w tls fuel url statusCap s, s.ready = true → Reaches w tls fuel cap raw 4 (scopy locationCap url) s →
    ∃ v log t, netHttpGet w tls fuel url cap statusCap s = some (v, log, t) ∧ P v

section

variable {w : World} {tls : TlsExchange} {fuel cap hops : ℕ} {raw current : List UInt8} {s : State}
  {v : Verdict} {P : Verdict → Prop}

/-- A response that means the same in every hop, and no redirect, decides the call. -/
theorem Reaches.getLoop (h : Reaches w tls fuel cap raw hops current s)
    (hv : ∀ current last, httpResponse current raw last cap = v) (hfinal : ∀ next, v ≠ .follow next) :
    ∀ log, ∃ log' t, Orion.Http.getLoop w tls fuel cap hops current log s = some (v, log', t) := by
  induction h with
  | @here hops current s t url hurl hraw =>
    intro log
    refine ⟨log ++ [⟨url.secure, url.host, url.port, httpRequest url⟩], t, ?_⟩
    rw [Orion.Http.getLoop, hurl]
    simp only [hraw, Option.bind_eq_bind, Option.bind_some, hv]
  | @next hops current other next s t url hurl hraw hfollow _ ih =>
    intro log
    obtain ⟨log', t', hloop⟩ := ih (log ++ [⟨url.secure, url.host, url.port, httpRequest url⟩])
    refine ⟨log', t', ?_⟩
    rw [Orion.Http.getLoop, hurl]
    simp only [hraw, Option.bind_eq_bind, Option.bind_some, hfollow, hloop]

/-- **What every call makes of a response.** -/
theorem returns_iff (hcap : 2 ≤ cap) (hv : ∀ current last, httpResponse current raw last cap = v)
    (hfinal : ∀ next, v ≠ .follow next) :
    Returns raw cap P ↔ ∀ statusCap, P (v.cutStatus statusCap) := by
  have hrun : ∀ w tls fuel url statusCap s, s.ready = true →
      Reaches w tls fuel cap raw 4 (scopy locationCap url) s →
        ∃ log t, netHttpGet w tls fuel url cap statusCap s = some (v.cutStatus statusCap, log, t) := by
    intro w tls fuel url statusCap s hready hreach
    obtain ⟨log, t, hloop⟩ := hreach.getLoop hv hfinal []
    refine ⟨log, t, ?_⟩
    rw [netHttpGet, if_neg (by simp [hready]; omega), hloop]
    rfl
  constructor
  · intro h statusCap
    -- a call through TLS to a server that sends just these bytes
    have hurl : parseUrl (scopy locationCap (ascii "https://a/")) =
        some ⟨true, ascii "a", 443, ascii "/"⟩ := by decide
    have hreach : Reaches World.quiet (fun _ _ _ _ s => some (.ok raw, s)) 0 cap raw 4
        (scopy locationCap (ascii "https://a/")) { State.boot with ready := true } := .here hurl rfl
    obtain ⟨v', log', t', hget', hP⟩ := h _ _ _ _ statusCap _ rfl hreach
    obtain ⟨log, t, hget⟩ := hrun _ _ _ _ statusCap _ rfl hreach
    rw [hget] at hget'
    obtain rfl : v.cutStatus statusCap = v' := congrArg Prod.fst (Option.some.inj hget')
    exact hP
  · intro h w tls fuel url statusCap s hready hreach
    obtain ⟨log, t, hget⟩ := hrun w tls fuel url statusCap s hready hreach
    exact ⟨_, log, t, hget, h statusCap⟩

end

/-- The body is delivered as far as it fits. -/
def Delivered (payload : List UInt8) (cap : ℕ) (v : Verdict) : Prop :=
  ∃ status, v = .done status (payload.take (cap - 1))

def Failed (v : Verdict) : Prop := ∃ status, v = .failed status

/-- **The response round-trips**: a call delivers its body without a byte-order mark, and fails if fewer
bytes of the body arrive. -/
def SizedResponse.RoundTrips (r : SizedResponse) : Prop :=
  ∀ cap, 2 ≤ cap → Returns r.bytes cap (Delivered (stripBom r.body) cap) ∧
    ∀ k < r.body.length, Returns (r.withBody (r.body.take k)) cap Failed

/-! ## The result of a call -/

namespace SizedResponse

variable (r : SizedResponse)

/-- The code takes the header and the body apart somewhere, and extracts the rest; where it does so in
the wrong place, at least four bytes of the body are lost. -/
theorem httpResponse_withBody (b : List UInt8) : ∃ head src,
    (∀ cap current last, httpResponse current (r.withBody b) last cap =
      verdictOf ((r.withBody b).takeWhile (! isLineEnd ·)) (extractBody head src cap)) ∧
    (r.Placed b → head = r.head ∧ src = b) ∧ (¬ r.Placed b → src.length + 4 ≤ b.length) := by
  obtain ⟨t, off, hbd, hsrc⟩ : ∃ t off, headerBoundary (r.withBody b) =
      some ⟨(r.head ++ t).length, off⟩ ∧ (r.withBody b).take (r.head ++ t).length = r.head ++ t ∧
        (r.Placed b → t = [] ∧ (r.withBody b).drop off = b) ∧
        (¬ r.Placed b → ((r.withBody b).drop off).length + 4 ≤ b.length) := by
    by_cases hb : r.Placed b
    · refine ⟨[], _, by rw [r.headerBoundary_placed hb, List.append_nil], ?_, fun _ => ⟨rfl, ?_⟩,
        fun hno => absurd hb hno⟩
      · rw [List.append_nil, withBody, List.append_assoc, List.take_left]
      · rw [withBody, ← List.length_append, List.drop_left]
    · obtain ⟨i, hi, hbd⟩ := r.headerBoundary_misplaced hb
      have hlf : r.eol = [lf] := by
        simp only [Placed, not_or] at hb
        exact r.eol_ok.resolve_left hb.1
      have hlen : (r.withBody b).length = r.head.length + 2 + b.length := by
        simp only [withBody, List.length_append, hlf, List.length_cons, List.length_nil]
      have ht : (((r.eol ++ r.eol) ++ b).take (i + 2)).length = i + 2 := by
        simp only [List.length_take, List.length_append, hlf, List.length_cons, List.length_nil]
        omega
      refine ⟨((r.eol ++ r.eol) ++ b).take (i + 2), _, by rw [hbd, List.length_append, ht], ?_,
        fun hb' => absurd hb' hb, fun _ => ?_⟩
      · rw [List.length_append, ht, withBody, List.append_assoc, List.take_length_add_append]
      · rw [List.length_drop, hlen]
        omega
  obtain ⟨htake, hplaced, hlost⟩ := hsrc
  refine ⟨r.head ++ t, (r.withBody b).drop off, fun cap current last => ?_, fun hb => ?_, hlost⟩
  · rw [httpResponse_of_boundary hbd (by rw [htake, r.httpStatusCode_head, r.notRedirect]), htake]
  · obtain ⟨rfl, hdrop⟩ := hplaced hb
    exact ⟨List.append_nil _, hdrop⟩

theorem verdictOf_ne_follow (status : List UInt8) (x : Except String (List UInt8)) (next : List UInt8) :
    verdictOf status x ≠ .follow next := by
  cases x <;> simp [verdictOf]

section

variable {r} {b head src : List UInt8} {cap : ℕ}

theorem returns_delivered (hcap : 2 ≤ cap) (h : ∀ cap current last,
    httpResponse current (r.withBody b) last cap =
      verdictOf ((r.withBody b).takeWhile (! isLineEnd ·)) (extractBody head src cap))
    (payload : List UInt8) : Returns (r.withBody b) cap (Delivered payload cap) ↔
      extractBody head src cap = .ok (payload.take (cap - 1)) := by
  rw [returns_iff hcap (h cap) (verdictOf_ne_follow _ _)]
  unfold Delivered
  cases extractBody head src cap with
  | error e => simp [verdictOf, Verdict.cutStatus]
  | ok body => simp [verdictOf, Verdict.cutStatus]

theorem returns_failed (hcap : 2 ≤ cap) (h : ∀ cap current last,
    httpResponse current (r.withBody b) last cap =
      verdictOf ((r.withBody b).takeWhile (! isLineEnd ·)) (extractBody head src cap)) :
    Returns (r.withBody b) cap Failed ↔ ∃ e, extractBody head src cap = .error e := by
  rw [returns_iff hcap (h cap) (verdictOf_ne_follow _ _)]
  unfold Failed
  cases extractBody head src cap with
  | error e => simp [verdictOf, Verdict.cutStatus]
  | ok body => simp [verdictOf, Verdict.cutStatus]

end

/-! ## What is extracted -/

/-- The header contains the text by which the code knows a chunked body. -/
def SaysChunked : Prop := containsCi r.head (ascii "transfer-encoding: chunked") = true

theorem length_le_stripBom (s : List UInt8) : s.length ≤ (stripBom s).length + 3 := by
  unfold stripBom
  split
  · rw [List.length_drop]
    omega
  · omega

theorem extractBody_length {head src body : List UInt8} {cap : ℕ}
    (h : extractBody head src cap = .ok body) : body.length ≤ src.length := by
  have hbom := stripBom_length src
  unfold extractBody at h
  simp only at h
  split at h
  · split at h
    · cases h
    · obtain rfl := Except.ok.inj h
      have hdecode := decodeChunked_length (stripBom src) cap
      omega
  · split at h
    · obtain rfl := Except.ok.inj h
      have htake := List.length_take_le' (cap - 1) (stripBom src)
      omega
    · split at h
      · cases h
      · next expected _ =>
        split at h
        · cases h
        · obtain rfl := Except.ok.inj h
          have h1 := List.length_take_le' (cap - 1) ((stripBom src).take expected)
          have h2 := List.length_take_le' expected (stripBom src)
          omega

section

variable {r}

/-- No body is no chunks. -/
theorem extractBody_chunked (hc : r.SaysChunked) (cap : ℕ) : extractBody r.head [] cap = .ok [] := by
  have hbom : stripBom [] = [] := rfl
  unfold SaysChunked at hc
  unfold extractBody
  rw [hc, if_pos rfl, hbom, decodeChunked_nil, if_neg (by simp)]

theorem extractBody_gap (hc : ¬ r.SaysChunked) (hd : ¬ r.Direct) (b : List UInt8) (cap : ℕ) :
    extractBody r.head b cap = .ok ((stripBom b).take (cap - 1)) := by
  unfold SaysChunked at hc
  unfold extractBody
  simp only
  rw [if_neg hc, r.headerValueCi_gap hd]

theorem extractBody_direct (hc : ¬ r.SaysChunked) (hd : r.Direct) {m : ℕ}
    (hm : parseSizeDec (r.value.take 31) = some m) (b : List UInt8) (cap : ℕ) :
    extractBody r.head b cap =
      if (stripBom b).length < m then .error "Truncated HTTP body"
      else .ok (((stripBom b).take m).take (cap - 1)) := by
  unfold SaysChunked at hc
  unfold extractBody
  simp only
  rw [if_neg hc, r.headerValueCi_direct hd]
  simp only [hm]

end

/-- The response is read as it is meant: it has no body; or its header does not speak of chunks, its
field has no gap before the colon and a value that fits the code's buffer, the body does not begin with a
byte-order mark, and it does not mislead the search for the end of the header. -/
def Plain : Prop :=
  r.body = [] ∨ ¬ r.SaysChunked ∧ r.Direct ∧ r.value.length ≤ 31 ∧ ¬ [0xEF, 0xBB, 0xBF] <+: r.body ∧
    r.Placed r.body

/-! ## The round trip -/

variable {r}

theorem Placed.take {b : List UInt8} (h : r.Placed b) (k : ℕ) : r.Placed (b.take k) :=
  h.imp_right fun hno hwithin => hno (hwithin.trans (List.take_prefix k b).isInfix)

/-- Where the header ends is seen in the same place with every body that does not mislead. -/
theorem httpResponse_placed {b : List UInt8} (hb : r.Placed b) (cap : ℕ) (current : List UInt8)
    (last : Bool) : httpResponse current (r.withBody b) last cap =
      verdictOf ((r.withBody b).takeWhile (! isLineEnd ·)) (extractBody r.head b cap) := by
  obtain ⟨head, src, hresponse, hplaced, -⟩ := r.httpResponse_withBody b
  obtain ⟨rfl, rfl⟩ := hplaced hb
  exact hresponse cap current last

theorem stripBom_of_not {s : List UInt8} (h : ¬ [0xEF, 0xBB, 0xBF] <+: s) : stripBom s = s := by
  rw [stripBom, if_neg (mt List.isPrefixOf_iff_prefix.mp h)]

theorem length_stripBom {s : List UInt8} (h : [0xEF, 0xBB, 0xBF] <+: s) :
    (stripBom s).length < s.length := by
  have hlen : 3 ≤ s.length := h.length_le
  rw [stripBom, if_pos (List.isPrefixOf_iff_prefix.mpr h), List.length_drop]
  omega

/-- A body that misleads the search is not delivered: the code takes a part of it for the header. -/
theorem RoundTrips.placed (h : r.RoundTrips) : r.Placed r.body := by
  by_contra hno
  obtain ⟨head, src, hresponse, -, hlost⟩ := r.httpResponse_withBody r.body
  have hshort := hlost hno
  have hdone := (returns_delivered (by omega) hresponse _).mp (h (r.body.length + 2) (by omega)).1
  have hlen := extractBody_length hdone
  have hbom := length_le_stripBom r.body
  have hle := stripBom_length r.body
  rw [List.length_take, min_eq_right (by omega)] at hlen
  omega

/-- A response that round-trips and has a body is read as it is meant. -/
theorem RoundTrips.plain (h : r.RoundTrips) : r.Plain := by
  by_cases hbody : r.body = []
  · exact .inl hbody
  have hpos := List.length_pos_of_ne_nil hbody
  have hplaced := h.placed
  have hdone : extractBody r.head r.body 2 = .ok ((stripBom r.body).take 1) :=
    (returns_delivered le_rfl (httpResponse_placed hplaced) _).mp (h 2 le_rfl).1
  have hfail : ∀ k < r.body.length, ∃ e, extractBody r.head (r.body.take k) 2 = .error e := by
    intro k hk
    exact (returns_failed le_rfl (httpResponse_placed (hplaced.take k))).mp ((h 2 le_rfl).2 k hk)
  have hnothing : ∃ e, extractBody r.head [] 2 = .error e := hfail 0 hpos
  have hc : ¬ r.SaysChunked := by
    intro hc
    obtain ⟨e, he⟩ := hnothing
    rw [extractBody_chunked hc] at he
    cases he
  have hd : r.Direct := by
    by_contra hd
    obtain ⟨e, he⟩ := hnothing
    rw [extractBody_gap hc hd] at he
    cases he
  obtain ⟨m, hm, hwhole, hcut⟩ := r.parseSizeDec_value
  have hvalue : r.value.length ≤ 31 := by
    by_contra hlong
    have htenth := hcut (by omega)
    -- a body without its last byte still has a tenth of the length, unless that is nothing
    obtain ⟨k, hk, hmk⟩ : ∃ k < r.body.length, m ≤ (stripBom (r.body.take k)).length := by
      by_cases hzero : m = 0
      · exact ⟨0, hpos, by omega⟩
      · have hbom := length_le_stripBom (r.body.take (r.body.length - 1))
        rw [List.length_take] at hbom
        exact ⟨r.body.length - 1, by omega, by omega⟩
    obtain ⟨e, he⟩ := hfail k hk
    rw [extractBody_direct hc hd hm, if_neg (by omega)] at he
    cases he
  have hbom : ¬ [0xEF, 0xBB, 0xBF] <+: r.body := by
    intro hbom
    rw [extractBody_direct hc hd hm, hwhole hvalue, if_pos (length_stripBom hbom)] at hdone
    cases hdone
  exact .inr ⟨hc, hd, hvalue, hbom, hplaced⟩

theorem Plain.roundTrips (h : r.Plain) : r.RoundTrips := by
  obtain ⟨m, hm, hwhole, hcut⟩ := r.parseSizeDec_value
  intro cap hcap
  rcases h with hbody | ⟨hc, hd, hvalue, hbom, hplaced⟩
  · have hlen : r.body.length = 0 := by rw [hbody]; rfl
    have hm0 : m = 0 := by
      rcases Nat.lt_or_ge 31 r.value.length with hlong | hshort
      · have htenth := hcut hlong
        omega
      · rw [hwhole hshort, hlen]
    have hplaced : r.Placed r.body := by
      rw [hbody]
      exact .inr (by simp)
    have hdone : extractBody r.head r.body cap = .ok ((stripBom r.body).take (cap - 1)) := by
      rw [hbody]
      by_cases hc : r.SaysChunked
      · rw [extractBody_chunked hc]
        simp [stripBom]
      · by_cases hd : r.Direct
        · rw [extractBody_direct hc hd hm, hm0]
          simp [stripBom]
        · exact extractBody_gap hc hd [] cap
    refine ⟨(returns_delivered hcap (httpResponse_placed hplaced) _).mpr hdone, fun k hk => ?_⟩
    omega
  · have hn := hwhole hvalue
    constructor
    · refine (returns_delivered hcap (httpResponse_placed hplaced) _).mpr ?_
      rw [extractBody_direct hc hd hm, stripBom_of_not hbom, hn, if_neg (lt_irrefl _), List.take_length]
    · intro k hk
      have hshort := stripBom_length (r.body.take k)
      rw [List.length_take] at hshort
      refine (returns_failed hcap (httpResponse_placed (hplaced.take k))).mpr
        ⟨"Truncated HTTP body", ?_⟩
      rw [extractBody_direct hc hd hm, if_pos (by omega)]

/-- **A response with a `Content-Length` round-trips exactly if it is read as it is meant.** -/
theorem content_length_roundtrip_iff (r : SizedResponse) : r.RoundTrips ↔ r.Plain :=
  ⟨RoundTrips.plain, Plain.roundTrips⟩

/-! ## A byte-order mark -/

theorem okStatus_version : OneLine (ascii "HTTP/1.0") ∧ 32 ∉ ascii "HTTP/1.0" := by decide

theorem okStatus_digits : isDigit 50 = true ∧ isDigit 48 = true ∧ isDigit 48 = true := by decide

theorem okStatus_reason : OneLine (ascii " OK") := by decide

def okStatus : StatusLine where
  version := ascii "HTTP/1.0"
  gap := 0
  hundreds := 50
  tens := 48
  ones := 48
  reason := ascii " OK"
  version_ok := okStatus_version
  digits := okStatus_digits
  reason_ok := okStatus_reason

theorem fourBytes_line : ascii "Content-Length: 4" ≠ [] ∧ OneLine (ascii "Content-Length: 4") := by decide

def fourBytes : Line := ⟨ascii "Content-Length: 4", fourBytes_line.1, fourBytes_line.2⟩

theorem fourBytes_isField : IsField "Content-Length" fourBytes.bytes (ascii "4") :=
  (isField_of_split plainName_length (by decide :
    splitColon fourBytes.bytes = some (ascii "Content-Length", ascii " 4"))).mpr (by decide)

theorem fourBytes_numeral : IsNumeral decDigit 10 (ascii "4") 4 :=
  ⟨by decide, [4], by decide, by decide⟩

theorem fourBytes_notChunked : ¬ IsChunked [fourBytes] := by
  rintro ⟨l, hl, v, hfield, -⟩
  obtain rfl := List.mem_singleton.mp hl
  have hsplit : splitColon fourBytes.bytes = some (ascii "Content-Length", ascii " 4") := by decide
  have hname := ((isField_of_split (by decide : PlainName (ascii "Transfer-Encoding")) hsplit).mp hfield).1
  exact absurd hname (by decide)

/-- Four bytes are announced and sent: a byte-order mark and a letter. -/
def bomResponse : SizedResponse where
  eol := crlf
  status := okStatus
  before := []
  length := fourBytes
  after := []
  value := ascii "4"
  body := [0xEF, 0xBB, 0xBF, 120]
  eol_ok := .inl rfl
  notRedirect := rfl
  notChunked := fourBytes_notChunked
  isLength := fourBytes_isField
  numeral := fourBytes_numeral
  small := by decide
  single := List.forall_mem_nil _

/-- The mark is taken off before the length is checked, so the body counts as truncated. -/
theorem bom_truncated : ¬ bomResponse.RoundTrips ∧
    httpResponse [] bomResponse.bytes false 64 = .failed (ascii "Truncated HTTP body") := by
  refine ⟨fun h => ?_, by decide +kernel⟩
  rcases h.plain with hnil | ⟨-, -, -, hbom, -⟩
  · exact absurd hnil (by decide)
  · exact hbom (by decide)

end SizedResponse

end Orion.Http
