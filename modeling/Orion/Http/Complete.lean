import Orion.Http.Downgrade
import Orion.Http.Request
import Orion.Http.Resolve

/-!
# Shortened URLs

The URL of a call and the `Location` of a redirect pass through buffers of 256 bytes and are cut
there.  A cut URL is often still accepted, and then it is fetched.  `hopsFrom` goes along with the
loop of `net_http_get` and notes for each request the complete URL that it should be for;
`http_get_complete_iff` says when it is.
-/

namespace Orion.Http

open Orion.Net (State)

/-! ## Complete URLs -/

/-- The whole value of the first field of that name. -/
def headerValueFull (head name : List UInt8) : Option (List UInt8) :=
  (fieldLines head).findSome? fun line =>
    match splitColon line with
    | none => none
    | some (field, value) => if eqCi field name then some (trim value) else none

/-- The complete URL that a response redirects to; `none` if it is refused. -/
def redirectTarget (current raw : List UInt8) : Option (List UInt8) := do
  let bd ← headerBoundary raw
  let loc ← headerValueFull (raw.take bd.headEnd) (ascii "Location")
  resolveFull current loc

/-- The request for a URL. -/
def requestOf (url : Url) : Request := ⟨url.secure, url.host, url.port, httpRequest url⟩

/-- A request that is sent, and the complete URL in its place. -/
structure Hop where
  wanted : Option (List UInt8)
  request : Request

section

variable (w : World) (tls : TlsExchange) (fuel cap : ℕ)

/-- The requests of the loop of `net_http_get`, with the complete URLs. -/
def hopsFrom : ℕ → Option (List UInt8) → List UInt8 → State → List Hop
  | 0, _, _, _ => []
  | hops + 1, wanted, current, s =>
    match parseUrl current with
    | none => []
    | some url =>
      ⟨wanted, requestOf url⟩ ::
        match exchange w tls fuel (hops + 1) url (httpRequest url) s with
        | some (.ok raw, s) =>
          match httpResponse current raw (hops = 0) cap with
          | .follow next => hopsFrom hops (redirectTarget current raw) (scopy locationCap next) s
          | _ => []
        | _ => []

/-- The requests of a call. -/
def netHttpGetHops (url : List UInt8) (s : State) : List Hop :=
  if s.ready = false ∨ cap < 2 then [] else hopsFrom w tls fuel cap 4 (some url) (scopy locationCap url) s

end

/-- The request is the one for the complete URL. -/
def Hop.Complete (hop : Hop) : Prop :=
  ∃ full url, hop.wanted = some full ∧ parseUrl full = some url ∧ hop.request = requestOf url

/-- The complete URL has no zero byte and fits the buffers, perhaps without the slash that is the
whole path: at most 255 bytes, or 255 bytes of scheme, host and port and a slash. -/
def KeptUrl (full : List UInt8) : Prop :=
  0 ∉ full ∧ (full.length ≤ 255 ∨ ∃ t, full = t ++ [47] ∧ t.length = 255 ∧ restOf t = [])

/-! ## What the buffers hold -/

theorem headerValueCi_eq (head name : List UInt8) (cap : ℕ) :
    headerValueCi head name cap = (headerValueFull head name).map fun v => cstr (scopy cap v) := by
  unfold headerValueCi headerValueFull
  rw [List.map_findSome?]
  congr 1
  funext line
  rw [Function.comp_apply]
  cases hsplit : splitColon line with
  | none => simp only [Option.map_none]
  | some r =>
    simp only
    split <;> rfl

/-- A cut or a zero byte comes behind a short beginning. -/
theorem prefix_cut_iff {p s : List UInt8} (h0 : 0 ∉ p) (hlen : p.length ≤ 255) :
    p <+: cstr (scopy locationCap s) ↔ p <+: s := by
  constructor
  · intro h
    exact (h.trans (List.takeWhile_prefix _)).trans (List.take_prefix _ _)
  · rintro ⟨t, rfl⟩
    have hall : ∀ c ∈ p, decide (c ≠ 0) = true := by
      intro c hc
      simp only [ne_eq, decide_not, Bool.not_eq_true', decide_eq_false_iff_not]
      rintro rfl
      exact h0 hc
    have hcap : locationCap - 1 = 255 := rfl
    rw [scopy, hcap, List.take_append, List.take_of_length_le hlen, cstr,
      List.takeWhile_append_of_pos hall]
    exact List.prefix_append _ _

theorem startsCi_iff_exists {s p : List UInt8} :
    startsCi s p = true ↔ ∃ a, a <+: s ∧ a.map lowerAscii = p.map lowerAscii := by
  unfold startsCi
  rw [List.isPrefixOf_iff_prefix]
  constructor
  · intro h
    refine ⟨s.take (p.map lowerAscii).length, List.take_prefix _ _, ?_⟩
    rw [List.map_take]
    exact (List.prefix_iff_eq_take.mp h).symm
  · rintro ⟨a, ha, hmap⟩
    rw [← hmap]
    exact ha.map _

theorem startsCi_cut {p s : List UInt8} (h0 : 0 ∉ p) (hlen : p.length ≤ 255) :
    startsCi (cstr (scopy locationCap s)) p = startsCi s p := by
  rw [Bool.eq_iff_iff, startsCi_iff_exists, startsCi_iff_exists]
  refine exists_congr fun a => and_congr_left fun hmap => ?_
  have halen : a.length = p.length := by simpa using congrArg List.length hmap
  refine prefix_cut_iff (fun ha => ?_) (by omega)
  have hmem : lowerAscii 0 ∈ p.map lowerAscii := hmap ▸ List.mem_map_of_mem ha
  obtain ⟨c, hc, hlow⟩ := List.mem_map.mp hmem
  obtain rfl := eq_of_lowerAscii (d := 0) (by decide) (hlow.trans (by decide))
  exact h0 hc

theorem isPrefixOf_cut {p s : List UInt8} (h0 : 0 ∉ p) (hlen : p.length ≤ 255) :
    p.isPrefixOf (cstr (scopy locationCap s)) = p.isPrefixOf s := by
  rw [Bool.eq_iff_iff, List.isPrefixOf_iff_prefix, List.isPrefixOf_iff_prefix]
  exact prefix_cut_iff h0 hlen

/-- **What is resolved of a `Location` is the beginning of what should be**, if that is not refused:
no branch of the resolution depends on what was cut. -/
theorem resolveFull_cut {current loc target : List UInt8}
    (h : resolveFull current (cstr (scopy locationCap loc)) = some target) :
    resolveFull current loc = none ∨ ∃ front, resolveFull current loc = some (front ++ loc) ∧
      target = front ++ cstr (scopy locationCap loc) := by
  have hne : loc ≠ [] := by
    rintro rfl
    simp [resolveFull, scopy, cstr] at h
  have hne' : cstr (scopy locationCap loc) ≠ [] := by
    intro hnil
    simp [resolveFull, hnil] at h
  unfold resolveFull at h ⊢
  rw [if_neg hne'] at h
  rw [if_neg hne]
  cases hurl : parseUrl current with
  | none => simp [hurl] at h
  | some url =>
    simp only [hurl] at h ⊢
    rw [startsCi_cut (by decide) (by decide), startsCi_cut (by decide) (by decide),
      isPrefixOf_cut (by decide) (by decide), isPrefixOf_cut (by decide) (by decide)] at h
    split_ifs at h ⊢ with h1 h2 h3 h4 h5 h6 h7
    all_goals first
      | exact .inl rfl
      | exact .inr ⟨_, rfl, (Option.some.inj h).symm⟩
      | exact .inr ⟨[], rfl, (Option.some.inj h).symm⟩

/-! ## The beginning of an address -/

/-- More digits make a larger number. -/
theorem IsNumeral.lt_of_append {a b : List UInt8} {m n : ℕ} (ha : IsNumeral decDigit 10 a m)
    (hab : IsNumeral decDigit 10 (a ++ b) n) (hm : 0 < m) (hb : b ≠ []) : m < n := by
  obtain ⟨m', k, ha', rfl⟩ := hab.of_append ha.1
  obtain rfl : m = m' := ha.unique ha'
  have hpow : 10 ≤ 10 ^ b.length := Nat.le_self_pow (mt List.length_eq_zero_iff.mp hb) 10
  have hle := Nat.mul_le_mul_right m hpow
  omega

section

variable {a b : Address} {x : List UInt8} (hb : b.text = a.text ++ x)

include hb

/-- Behind the same host the port and the rest are continued. -/
theorem Address.port_split (hsecure : b.secure = a.secure) (hhost : b.host = a.host) :
    b.portText ++ b.rest = a.portText ++ (a.rest ++ x) := by
  have htext : schemeText a.secure ++ a.host ++ (b.portText ++ b.rest)
      = schemeText a.secure ++ a.host ++ (a.portText ++ (a.rest ++ x)) := by
    have hleft : schemeText a.secure ++ a.host ++ (b.portText ++ b.rest) = b.text := by
      rw [← hsecure, ← hhost]
      simp only [Address.text, Address.authority, List.append_assoc]
    rw [hleft, hb]
    simp only [Address.text, Address.authority, List.append_assoc]
  exact List.append_cancel_left htext

/-- What is cut off behind a path belongs to it. -/
theorem Address.cut_in_rest (hpath : pathOf b.rest = pathOf a.rest) (hrest : a.rest ≠ []) : x = [] := by
  have hhead : (a.rest ++ x).head? = a.rest.head? := List.head?_append_of_ne_nil _ hrest
  have hrestEq : b.rest = a.rest ++ x := by
    have h1 := b.restOf_text
    have h2 := (a.withRest (a.rest ++ x) (.inl hhead)).restOf_text
    have htext : (a.withRest (a.rest ++ x) (.inl hhead)).text = b.text := by
      rw [hb]
      simp only [Address.text, Address.authority, Address.withRest, List.append_assoc]
    rw [htext, h1] at h2
    exact h2
  obtain ⟨c, r, hr⟩ := List.exists_cons_of_ne_nil hrest
  rw [hrestEq, hr, List.cons_append, pathOf, pathOf] at hpath
  split at hpath
  · simp at hpath
    exact hpath
  · simp at hpath
    exact hpath

omit hb in
/-- Scheme and host alone are short, so they are cut in front of a zero byte only, and no address goes
on so. -/
theorem Address.no_cut_behind_host (hcut : 255 ≤ a.text.length ∨ x.head? = some 0) (hnil : a.portText = [])
    (hrest : a.rest = []) (hsplit : b.portText ++ b.rest = x) : False := by
  have hlen : a.text.length ≤ 103 := by
    have hhostLen := a.host_length
    have hcap : hostCap = 96 := rfl
    have hscheme : (schemeText a.secure).length ≤ 8 := by cases a.secure <;> decide
    simp only [Address.text, Address.authority, hnil, hrest, List.append_nil, List.length_append]
    omega
  have hzero : x.head? = some 0 := hcut.resolve_left (by omega)
  rw [← hsplit] at hzero
  rcases b.port_ok with ⟨hbnil, -⟩ | ⟨bdigits, hbdigits, -⟩
  · rw [hbnil, List.nil_append] at hzero
    rcases b.rest_end hbnil 0 hzero with h | h | h <;> exact absurd h (by decide)
  · rw [hbdigits] at hzero
    exact absurd (Option.some.inj hzero) (by decide)

/-- The same address without a path goes on with a slash. -/
theorem Address.cut_behind_port (hx : x ≠ []) (hcut : 255 ≤ a.text.length ∨ x.head? = some 0)
    (hurl : b.url = a.url) (hrest : a.rest = []) : x = [47] := by
  have hport : b.port = a.port := congrArg Url.port hurl
  have hpath : pathOf b.rest = pathOf a.rest := congrArg Url.path hurl
  have hsplit := Address.port_split hb (congrArg Url.secure hurl) (congrArg Url.host hurl)
  rw [hrest, List.nil_append] at hsplit
  have hbrest : b.rest = [] ∨ b.rest = [47] := by
    cases hbr : b.rest with
    | nil => exact .inl rfl
    | cons c r =>
      right
      have h47 : pathOf (c :: r) = [47] := by
        rw [← hbr, hpath, hrest]
        rfl
      rw [pathOf] at h47
      split at h47
      · simp at h47
      · exact h47
  rcases a.port_ok with ⟨hnil, -⟩ | ⟨digits, hdigits, hnum, hpos, -⟩
  · rw [hnil, List.nil_append] at hsplit
    exact (Address.no_cut_behind_host hcut hnil hrest hsplit).elim
  · -- the same port has no further digits
    rcases b.port_ok with ⟨hbnil, -⟩ | ⟨bdigits, hbdigits, hbnum, -⟩
    · exfalso
      rw [hbnil, List.nil_append, hdigits] at hsplit
      rcases hbrest with h | h <;> rw [h] at hsplit <;> simp at hsplit
    · rw [hdigits, hbdigits, List.cons_append, List.cons_append, List.cons.injEq] at hsplit
      have hsame : ∀ y, bdigits = digits ++ y → y = [] := by
        intro y hy
        by_contra hne
        have hlt := IsNumeral.lt_of_append hnum (hy ▸ hbnum) hpos hne
        omega
      rcases hbrest with h | h
      · rw [h, List.append_nil] at hsplit
        exact absurd (hsame x hsplit.2) hx
      · rw [h, ← List.dropLast_append_getLast hx, ← List.append_assoc] at hsplit
        obtain ⟨hd, hl⟩ := List.append_inj' hsplit.2 rfl
        rw [← List.dropLast_append_getLast hx, hsame _ hd, ← hl, List.nil_append]

end

/-- **A cut address that is accepted as the same URL** lacks nothing, or only the slash that is the
whole path.  The cut is behind 255 bytes or in front of a zero byte. -/
theorem parseUrl_cut {t x : List UInt8} {u : Url} (ht : parseUrl t = some u)
    (hcut : x ≠ [] → 255 ≤ t.length ∨ x.head? = some 0) :
    parseUrl (t ++ x) = some u ↔ x = [] ∨ (x = [47] ∧ restOf t = []) := by
  obtain ⟨a, rfl, rfl, hpath⟩ := parseUrl_address ht
  constructor
  · intro hfull
    by_cases hx : x = []
    · exact .inl hx
    right
    obtain ⟨b, hb, hurl, -⟩ := parseUrl_address hfull
    have hrest : a.rest = [] := by
      by_contra hrest
      exact hx (Address.cut_in_rest hb (congrArg Url.path hurl) hrest)
    rw [a.restOf_text]
    exact ⟨Address.cut_behind_port hb hx (hcut hx) hurl hrest, hrest⟩
  · rintro (rfl | ⟨rfl, hrest⟩)
    · rw [List.append_nil]
      exact ht
    · rw [a.restOf_text] at hrest
      have htext : a.text ++ [47] = (a.withRest [47] (.inr rfl)).text := by
        simp only [Address.text, Address.authority, Address.withRest, hrest, List.append_nil]
      rw [htext, Address.parseUrl_text, if_pos (by exact (by decide : (pathOf [47]).length < pathCap))]
      simp [Address.url, Address.withRest, hrest, pathOf]

section

variable {w : World} {tls : TlsExchange} {fuel cap : ℕ}

/-- The hops are the requests on the record of the loop. -/
theorem getLoop_hops : ∀ (hops : ℕ) (wanted : Option (List UInt8)) (current : List UInt8)
    (log : List Request) (s : State) {v : Verdict} {log' : List Request} {t : State},
    getLoop w tls fuel cap hops current log s = some (v, log', t) →
    log' = log ++ (hopsFrom w tls fuel cap hops wanted current s).map (·.request) := by
  intro hops
  induction hops with
  | zero =>
    intro wanted current log s v log' t h
    simpa [hopsFrom] using (congrArg (fun r => r.2.1) (Option.some.inj h)).symm
  | succ hops ih =>
    intro wanted current log s v log' t h
    rw [getLoop] at h
    rw [hopsFrom]
    cases hurl : parseUrl current with
    | none =>
      simp only [hurl] at h
      simpa using (congrArg (fun r => r.2.1) (Option.some.inj h)).symm
    | some url =>
      simp only [hurl] at h
      obtain ⟨⟨raw, s1⟩, hex, hrest⟩ := Option.bind_eq_some_iff.mp h
      simp only [hex]
      cases raw with
      | error status =>
        simpa [requestOf] using (congrArg (fun r => r.2.1) (Option.some.inj hrest)).symm
      | ok raw =>
        simp only at hrest ⊢
        cases hresp : httpResponse current raw (hops = 0) cap with
        | failed status =>
          rw [hresp] at hrest
          simpa [requestOf] using (congrArg (fun r => r.2.1) (Option.some.inj hrest)).symm
        | done status body =>
          rw [hresp] at hrest
          simpa [requestOf] using (congrArg (fun r => r.2.1) (Option.some.inj hrest)).symm
        | follow next =>
          simp only [hresp] at hrest ⊢
          rw [ih (redirectTarget current raw) _ _ _ hrest]
          simp [requestOf]

/-- A response that is followed: the complete `Location`, and what the buffer holds of it. -/
theorem httpResponse_location {current raw next : List UInt8} {last : Bool}
    (h : httpResponse current raw last cap = .follow next) :
    ∃ loc, redirectTarget current raw = resolveFull current loc ∧
      resolveRedirect current (cstr (scopy locationCap loc)) locationCap = .url next := by
  unfold httpResponse at h
  cases hbd : headerBoundary raw with
  | none => simp [hbd] at h
  | some bd =>
    simp only [hbd] at h
    split at h
    · unfold httpRedirect at h
      have hcut : ∀ name : List UInt8, headerValueCi (raw.take bd.headEnd) name locationCap
          = (headerValueFull (raw.take bd.headEnd) name).map
            fun v => cstr (scopy locationCap v) := by
        intro name
        exact headerValueCi_eq _ _ _
      rw [hcut] at h
      cases hloc : headerValueFull (raw.take bd.headEnd) (ascii "Location") with
      | none => simp [hloc] at h
      | some loc =>
        simp only [hloc, Option.map_some] at h
        split at h
        · simp at h
        · cases hr : resolveRedirect current (cstr (scopy locationCap loc)) locationCap with
          | downgrade => simp [hr] at h
          | unsupported => simp [hr] at h
          | url next' =>
            simp only [hr] at h
            obtain rfl := Verdict.follow.inj h
            refine ⟨loc, ?_, hr⟩
            simp [redirectTarget, hbd, hloc]
    · split at h <;> simp at h

/-! ## Every hop -/

theorem parseUrl_zero_free {t : List UInt8} {url : Url} (h0 : 0 ∉ t) (h : parseUrl t = some url) :
    0 ∉ originText url ∧ 0 ∉ url.path := by
  obtain ⟨a, rfl, rfl, -⟩ := parseUrl_address h
  simp only [Address.text, Address.authority, List.mem_append, not_or] at h0
  obtain ⟨⟨⟨hscheme, hhost⟩, -⟩, hrest⟩ := h0
  constructor
  · simp only [originText, List.mem_append, not_or]
    refine ⟨⟨hscheme, hhost⟩, fun hmem => ?_⟩
    unfold portSuffix at hmem
    split at hmem
    · rcases List.mem_cons.mp hmem with h | h
      · exact absurd h (by decide)
      · exact absurd (isDigit_of_numeral (portDigits_numeral a.port_ok.range.2) 0 h) (by decide)
    · simp at hmem
  · show 0 ∉ pathOf a.rest
    cases hr : a.rest with
    | nil => decide
    | cons c r =>
      rw [hr] at hrest
      rw [pathOf]
      split
      · simpa using hrest
      · exact hrest

theorem resolveFull_zero_free {current loc target : List UInt8} (h0 : 0 ∉ current) (hloc : 0 ∉ loc)
    (h : resolveFull current loc = some target) : 0 ∉ target := by
  unfold resolveFull at h
  split at h
  · simp at h
  · cases hurl : parseUrl current with
    | none => simp [hurl] at h
    | some url =>
      obtain ⟨horigin, hpath⟩ := parseUrl_zero_free h0 hurl
      have hdir : 0 ∉ dirOf url.path := fun hmem => hpath (List.mem_of_mem_take hmem)
      have hbehind : ∀ front, 0 ∉ front → 0 ∉ front ++ loc := by
        intro front hfront hmem
        exact (List.mem_append.mp hmem).elim hfront hloc
      simp only [hurl] at h
      split_ifs at h
      all_goals obtain rfl := Option.some.inj h
      · exact hloc
      · exact hloc
      · exact hbehind _ (by decide)
      · exact hbehind _ (by decide)
      · exact hbehind _ horigin
      · exact hbehind _ fun hmem => (List.mem_append.mp hmem).elim horigin hdir

/-- What a cut takes away: nothing, or it comes behind 255 bytes or begins with a zero byte. -/
def CutFrom (current full : List UInt8) : Prop :=
  ∃ x, full = current ++ x ∧ (x ≠ [] → 255 ≤ current.length ∨ x.head? = some 0)

theorem cutFrom_scopy (url : List UInt8) : CutFrom (scopy locationCap url) url := by
  refine ⟨url.drop (locationCap - 1), (List.take_append_drop _ _).symm, fun hx => .inl ?_⟩
  have hcap : locationCap - 1 = 255 := rfl
  rw [ne_eq, List.drop_eq_nil_iff] at hx
  rw [scopy, List.length_take]
  omega

theorem cutFrom_cstr (s : List UInt8) : CutFrom (cstr s) s := by
  refine ⟨s.dropWhile (fun c => decide (c ≠ 0)), List.takeWhile_append_dropWhile.symm, fun hx => .inr ?_⟩
  obtain ⟨c, r, hr⟩ := List.exists_cons_of_ne_nil hx
  have hhead := List.head?_dropWhile_not (fun c : UInt8 => decide (c ≠ 0)) s
  rw [hr] at hhead ⊢
  simpa using hhead

theorem CutFrom.trans {a b c : List UInt8} (hab : CutFrom a b) (hbc : CutFrom b c) : CutFrom a c := by
  obtain ⟨x, rfl, hx⟩ := hab
  obtain ⟨y, rfl, hy⟩ := hbc
  refine ⟨x ++ y, List.append_assoc _ _ _, fun hne => ?_⟩
  by_cases hxnil : x = []
  · subst hxnil
    simpa using hy (by simpa using hne)
  · rw [List.head?_append_of_ne_nil _ hxnil]
    exact hx hxnil

theorem CutFrom.append_left {a b : List UInt8} (f : List UInt8) (h : CutFrom a b) :
    CutFrom (f ++ a) (f ++ b) := by
  obtain ⟨x, rfl, hx⟩ := h
  refine ⟨x, (List.append_assoc _ _ _).symm, fun hne => (hx hne).imp_left fun hlen => ?_⟩
  rw [List.length_append]
  omega

/-- A hop and the text in `current`. -/
structure Hop.From (hop : Hop) (current : List UInt8) : Prop where
  zero_free : 0 ∉ current
  length_le : current.length ≤ 255
  parsed : ∃ url, parseUrl current = some url ∧ hop.request = requestOf url
  cut : ∀ full, hop.wanted = some full → CutFrom current full

theorem requestOf_inj {u v : Url} (hu : u.Fits) (hv : v.Fits) (h : requestOf u = requestOf v) :
    u = v := by
  have hsecure : u.secure = v.secure := congrArg Request.secure h
  have hhost : u.host = v.host := congrArg Request.host h
  have hport : u.port = v.port := congrArg Request.port h
  have hbytes : httpRequest u = httpRequest v := congrArg Request.bytes h
  have hvalue : hostValue u = hostValue v := by
    rw [hostValue, hostValue, hsecure, hhost, hport]
  rw [httpRequest_eq hu, httpRequest_eq hv, hvalue] at hbytes
  simp only [requestLines, joinCrlf, List.append_assoc] at hbytes
  have hpath : u.path = v.path :=
    List.append_cancel_right (List.append_cancel_left hbytes)
  cases u
  cases v
  simp only at hsecure hhost hport hpath
  rw [hsecure, hhost, hport, hpath]

/-- **One hop**: the request is the complete one exactly when the complete URL was kept. -/
theorem Hop.From.complete_iff {hop : Hop} {current : List UInt8} (h : hop.From current) :
    hop.Complete ↔ ∃ full, hop.wanted = some full ∧ KeptUrl full := by
  obtain ⟨url, hurl, hrequest⟩ := h.parsed
  constructor
  · rintro ⟨full, furl, hwanted, hfurl, hsame⟩
    obtain rfl : url = furl :=
      requestOf_inj (fits_of_parseUrl hurl) (fits_of_parseUrl hfurl) (hrequest.symm.trans hsame)
    obtain ⟨x, rfl, hx⟩ := h.cut full hwanted
    refine ⟨current ++ x, hwanted, ?_⟩
    rcases (parseUrl_cut hurl hx).mp hfurl with rfl | ⟨rfl, hrest⟩
    · rw [List.append_nil]
      exact ⟨h.zero_free, .inl h.length_le⟩
    · refine ⟨?_, .inr ⟨current, rfl, ?_, hrest⟩⟩
      · simpa using h.zero_free
      · have hlen := h.length_le
        rcases hx (by simp) with hge | hzero
        · omega
        · simp at hzero
  · rintro ⟨full, hwanted, h0, hkept⟩
    obtain ⟨x, rfl, hx⟩ := h.cut full hwanted
    refine ⟨current ++ x, url, hwanted, (parseUrl_cut hurl hx).mpr ?_, hrequest⟩
    by_cases hnil : x = []
    · exact .inl hnil
    have hzero : x.head? ≠ some 0 := by
      intro hz
      exact h0 (List.mem_append_right _ (List.mem_of_mem_head? hz))
    have hge := (hx hnil).resolve_right hzero
    have hpos := List.length_pos_of_ne_nil hnil
    rcases hkept with hlen | ⟨t, ht, htlen, hrest⟩
    · rw [List.length_append] at hlen
      omega
    · -- a buffer of 255 bytes holds all but the last slash
      have hcur := h.length_le
      obtain ⟨rfl, hx47⟩ := List.append_inj ht (by omega)
      exact .inr ⟨hx47, hrest⟩

/-- **Every hop of a run** comes from a text without zero bytes that fits the buffer. -/
theorem hopsFrom_from : ∀ (hops : ℕ) (wanted : Option (List UInt8)) (current : List UInt8) (s : State),
    0 ∉ current → current.length ≤ 255 → (∀ full, wanted = some full → CutFrom current full) →
    ∀ hop ∈ hopsFrom w tls fuel cap hops wanted current s, ∃ text, hop.From text := by
  intro hops
  induction hops with
  | zero =>
    intro wanted current s _ _ _ hop hmem
    simp [hopsFrom] at hmem
  | succ hops ih =>
    intro wanted current s h0 hlen hcut hop hmem
    rw [hopsFrom] at hmem
    cases hurl : parseUrl current with
    | none => simp [hurl] at hmem
    | some url =>
      simp only [hurl, List.mem_cons] at hmem
      rcases hmem with rfl | hmem
      · exact ⟨current, h0, hlen, ⟨url, hurl, rfl⟩, hcut⟩
      · cases hex : exchange w tls fuel (hops + 1) url (httpRequest url) s with
        | none => simp [hex] at hmem
        | some r =>
          obtain ⟨raw | raw, s1⟩ := r
          · simp [hex] at hmem
          · simp only [hex] at hmem
            cases hresp : httpResponse current raw (hops = 0) cap with
            | failed status => simp [hresp] at hmem
            | done status body => simp [hresp] at hmem
            | follow next =>
              simp only [hresp] at hmem
              obtain ⟨loc, hwanted, hresolve⟩ := httpResponse_location hresp
              obtain ⟨-, target, htarget, rfl⟩ := resolveRedirect_eq_url_iff.mp hresolve
              have hcstr : 0 ∉ cstr (scopy locationCap loc) := by
                intro hz
                exact absurd (List.mem_takeWhile_imp hz) (by decide)
              have hzero := resolveFull_zero_free h0 hcstr htarget
              have hcap : locationCap - 1 = 255 := rfl
              have hsame : scopy locationCap (target.take (locationCap - 1))
                  = scopy locationCap target := by
                rw [scopy, scopy, List.take_take, Nat.min_self]
              rw [hsame] at hmem
              refine ih _ _ _ ?_ ?_ ?_ hop hmem
              · exact fun hz => hzero (List.mem_of_mem_take hz)
              · rw [scopy, List.length_take]
                omega
              · intro full hfull
                rw [hwanted] at hfull
                rcases resolveFull_cut htarget with hnone | ⟨front, hsome, rfl⟩
                · rw [hnone] at hfull
                  simp at hfull
                · rw [hsome] at hfull
                  obtain rfl := Option.some.inj hfull
                  have hvalue := (cutFrom_cstr (scopy locationCap loc)).trans (cutFrom_scopy loc)
                  exact (cutFrom_scopy _).trans (hvalue.append_left front)

/-- **When no URL is fetched in a shortened form.**  The hops are the requests on the record of a
call, and each of them is the request for the complete URL exactly when each complete URL, the one
given or the one that a `Location` means, was kept by the buffers. -/
theorem http_get_complete_iff (w : World) (tls : TlsExchange) (fuel cap statusCap : ℕ) (s : State)
    {url : List UInt8} (h0 : 0 ∉ url) :
    (∀ result log t, netHttpGet w tls fuel url cap statusCap s = some (result, log, t) →
      log = (netHttpGetHops w tls fuel cap url s).map (·.request)) ∧
    ((∀ hop ∈ netHttpGetHops w tls fuel cap url s, hop.Complete) ↔
      ∀ hop ∈ netHttpGetHops w tls fuel cap url s, ∃ full, hop.wanted = some full ∧ KeptUrl full) := by
  constructor
  · intro result log t h
    unfold netHttpGet at h
    unfold netHttpGetHops
    split at h
    · rename_i hready
      rw [if_pos hready]
      simp only [Option.some.injEq, Prod.mk.injEq] at h
      exact h.2.1.symm
    · rename_i hready
      rw [if_neg hready]
      obtain ⟨⟨v, log', t'⟩, hloop, hresult⟩ := Option.map_eq_some_iff.mp h
      have hlog := getLoop_hops 4 (some url) _ _ _ hloop
      obtain rfl : log' = log := congrArg (fun r => r.2.1) hresult
      simpa using hlog
  · have hfrom : ∀ hop ∈ netHttpGetHops w tls fuel cap url s, ∃ text, hop.From text := by
      intro hop hmem
      unfold netHttpGetHops at hmem
      split at hmem
      · simp at hmem
      · refine hopsFrom_from 4 _ _ _ ?_ ?_ ?_ hop hmem
        · exact fun hz => h0 (List.mem_of_mem_take hz)
        · have hcap : locationCap - 1 = 255 := rfl
          rw [scopy, List.length_take]
          omega
        · intro full hfull
          obtain rfl := Option.some.inj hfull
          exact cutFrom_scopy _
    refine forall₂_congr fun hop hmem => ?_
    obtain ⟨text, htext⟩ := hfrom hop hmem
    exact htext.complete_iff

end

theorem http_get_complete_smoke :
    (netHttpGetHops World.quiet redirectOnce 0 64 (ascii "https://a/")
        { State.boot with ready := true }).map (·.wanted)
      = [some (ascii "https://a/"), some (ascii "https://a/b")] ∧
    ∀ hop ∈ netHttpGetHops World.quiet redirectOnce 0 64 (ascii "https://a/")
      { State.boot with ready := true }, hop.Complete := by
  have hwanted : (netHttpGetHops World.quiet redirectOnce 0 64 (ascii "https://a/")
      { State.boot with ready := true }).map (·.wanted)
        = [some (ascii "https://a/"), some (ascii "https://a/b")] := by
    decide +kernel
  refine ⟨hwanted, (http_get_complete_iff World.quiet redirectOnce 0 64 64
    { State.boot with ready := true } (by decide : 0 ∉ ascii "https://a/")).2.mpr fun hop hmem => ?_⟩
  have hmem' := List.mem_map_of_mem (f := (·.wanted)) hmem
  rw [hwanted, List.mem_cons, List.mem_singleton] at hmem'
  rcases hmem' with h | h
  · exact ⟨_, h, by decide, .inl (by decide)⟩
  · exact ⟨_, h, by decide, .inl (by decide)⟩

/-- An address of 259 bytes; its path does not fit. -/
def longUrl : List UInt8 :=
  ascii "https://" ++ List.replicate 90 120 ++ 47 :: List.replicate 160 97

/-- The first 255 bytes of an address that is refused as a whole are fetched. -/
theorem http_get_shortened :
    0 ∉ longUrl ∧ ∃ hop ∈ netHttpGetHops World.quiet redirectOnce 0 64 longUrl
      { State.boot with ready := true }, ¬ hop.Complete := by
  refine ⟨by decide +kernel, ?_⟩
  have hwanted : (netHttpGetHops World.quiet redirectOnce 0 64 longUrl
      { State.boot with ready := true }).head?.map (·.wanted) = some (some longUrl) := by
    decide +kernel
  obtain ⟨hop, hhead, hhop⟩ := Option.map_eq_some_iff.mp hwanted
  refine ⟨hop, List.mem_of_mem_head? hhead, ?_⟩
  rintro ⟨full, url, hfull, hparse, -⟩
  obtain rfl := Option.some.inj (hhop.symm.trans hfull)
  have hrefused : parseUrl longUrl = none := by decide +kernel
  rw [hrefused] at hparse
  simp at hparse

end Orion.Http
