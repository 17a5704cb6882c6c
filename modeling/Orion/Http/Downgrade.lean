import Orion.Http.Get

/-!
# No HTTPS downgrade

A URL that starts with `https://` in any letter case is fetched through TLS or not at all, and the
next URL after a secure hop starts with `https://` again, whatever the `Location` field says: each
branch of `resolve_redirect` keeps the scheme (`resolveRedirect_keeps_scheme`), and cutting a URL to
255 bytes does not touch it.
-/

namespace Orion.Http

open Orion.Net (State)

/-! ## The scheme -/

/-- The URL starts with `https://` in any letter case. -/
def IsHttps (url : List UInt8) : Prop := startsCi url (ascii "https://") = true

theorem startsCi_iff {s p : List UInt8} :
    startsCi s p = true ↔ p.map lowerAscii <+: s.map lowerAscii := List.isPrefixOf_iff_prefix

/-- A cut behind the scheme does not touch it. -/
theorem isHttps_scopy {s : List UInt8} {cap : ℕ} (hcap : 9 ≤ cap) (h : IsHttps s) :
    IsHttps (scopy cap s) := by
  unfold IsHttps at *
  rw [startsCi_iff] at *
  unfold scopy
  rw [List.map_take]
  have hlen : ((ascii "https://").map lowerAscii).length = 8 := by decide
  rw [List.prefix_take_iff]
  exact ⟨h, by omega⟩

theorem isHttps_of_prefix {s : List UInt8} (h : ascii "https://" <+: s) : IsHttps s := by
  unfold IsHttps
  rw [startsCi_iff]
  exact h.map _

/-- `parse_url` takes such a URL for secure, if it takes it at all. -/
theorem parseUrl_secure {url : List UInt8} {u : Url} (hu : parseUrl url = some u)
    (h : IsHttps url) : u.secure = true := by
  have hscheme : ∀ (secure : Bool) (default : ℕ) (s : List UInt8),
      (if (ascii "https://").isPrefixOf url then some (true, 443, url.drop 8)
        else if (ascii "http://").isPrefixOf url then some (false, 80, url.drop 7)
        else none) = some (secure, default, s) → secure = true := by
    intro secure default s hs
    split at hs
    · exact (congrArg Prod.fst (Option.some.inj hs)).symm
    · split at hs
      · next hplain =>
        -- the fifth letter is `s` in one case and a colon in the other
        obtain ⟨t, rfl⟩ := List.isPrefixOf_iff_prefix.mp hplain
        have hno : startsCi (ascii "http://" ++ t) (ascii "https://") = false := rfl
        exact absurd h (Bool.eq_false_iff.mp hno)
      · simp at hs
  unfold parseUrl at hu
  simp only at hu
  split at hu
  · simp at hu
  · next secure default s hs =>
    have hsec := hscheme _ _ _ hs
    split at hu
    · simp at hu
    · split at hu
      · simp at hu
      · split at hu
        · simp at hu
        · rw [← Option.some.inj hu]
          exact hsec

theorem https_prefix_originOf {cap : ℕ} (hcap : 9 ≤ cap) {base : Url} (hb : base.secure = true) :
    ascii "https://" <+: originOf cap base := by
  have hcopy : scopy cap (ascii "https://") = ascii "https://" :=
    List.take_of_length_le (by
      have : (ascii "https://").length = 8 := by decide
      omega)
  unfold originOf sappend
  simp only [hb, if_true, hcopy]
  split
  · exact ((List.prefix_append _ _).trans (List.prefix_append _ _)).trans (List.prefix_append _ _)
  · exact List.prefix_append _ _

/-- **Every branch of `resolve_redirect` keeps the scheme of a secure base.** -/
theorem resolveRedirect_keeps_scheme {base loc next : List UInt8} {cap : ℕ} {url : Url}
    (hbase : parseUrl base = some url) (hsecure : url.secure = true)
    (h : resolveRedirect base loc cap = .url next) : IsHttps next := by
  unfold resolveRedirect at h
  split at h
  · simp at h
  next hcap =>
  simp only [not_or, not_lt] at hcap
  simp only [hbase, hsecure, if_true] at h
  split at h
  · -- an absolute `https://` URL
    next hloc =>
    rw [← Resolved.url.inj h]
    exact isHttps_scopy hcap.2 hloc
  split at h
  · simp at h
  split at h
  · -- the scheme of the base and a reference that starts with two slashes
    next hslashes =>
    obtain ⟨t, rfl⟩ := List.isPrefixOf_iff_prefix.mp hslashes
    rw [← Resolved.url.inj h]
    have hcopy : scopy cap (ascii "https:") = ascii "https:" :=
      List.take_of_length_le (by
        have : (ascii "https:").length = 6 := by decide
        omega)
    apply isHttps_of_prefix
    rw [hcopy]
    unfold sappend
    have hroom : 2 ≤ cap - 1 - (ascii "https:").length := by
      have : (ascii "https:").length = 6 := by decide
      omega
    obtain ⟨k, hk⟩ := Nat.exists_eq_add_of_le hroom
    refine ⟨t.take k, ?_⟩
    have hlen : (ascii "//").length = 2 := by decide
    rw [hk, List.take_append, List.take_of_length_le (by omega : (ascii "//").length ≤ 2 + k), hlen,
      Nat.add_sub_cancel_left, ← List.append_assoc]
    rfl
  split at h
  · simp at h
  have horigin := https_prefix_originOf hcap.2 hsecure
  split at h
  · rw [← Resolved.url.inj h]
    exact isHttps_of_prefix (horigin.trans (List.prefix_append _ _))
  · rw [← Resolved.url.inj h]
    exact isHttps_of_prefix ((horigin.trans (List.prefix_append _ _)).trans (List.prefix_append _ _))

/-! ## The call -/

/-- Once a request is secure, all later ones are. -/
def NoDowngrade (log : List Request) : Prop :=
  log.Pairwise fun a b => a.secure = true → b.secure = true

section

variable {w : World} {tls : TlsExchange} {fuel cap : ℕ}

/-- A response that is followed comes from a redirect. -/
theorem httpResponse_follow {current raw next : List UInt8} {last : Bool}
    (h : httpResponse current raw last cap = .follow next) :
    ∃ loc, resolveRedirect current loc locationCap = .url next := by
  unfold httpResponse at h
  split at h
  · simp at h
  · simp only at h
    split at h
    · unfold httpRedirect at h
      split at h
      · simp at h
      · next loc _ =>
        split at h
        · simp at h
        · split at h
          · simp at h
          · simp at h
          · next hr => exact ⟨loc, by rw [hr, Verdict.follow.inj h]⟩
    · split at h <;> simp at h

/-- **One hop**: nothing is sent, or one request goes out and the call ends, or it goes on with the
resolution of a `Location` against the current URL. -/
theorem getLoop_cases {hops : ℕ} {current : List UInt8} {log : List Request} {s : State}
    {v : Verdict} {log' : List Request} {t : State}
    (h : getLoop w tls fuel cap (hops + 1) current log s = some (v, log', t)) :
    log' = log ∨ ∃ url, parseUrl current = some url ∧
      ∃ r : Request, r.secure = url.secure ∧
        (log' = log ++ [r] ∨ ∃ loc next s', resolveRedirect current loc locationCap = .url next ∧
          getLoop w tls fuel cap hops (scopy locationCap next) (log ++ [r]) s'
            = some (v, log', t)) := by
  unfold getLoop at h
  split at h
  · left
    exact (congrArg (fun r => r.2.1) (Option.some.inj h)).symm
  · next url hurl =>
    refine .inr ⟨url, hurl, ⟨url.secure, url.host, url.port, httpRequest url⟩, rfl, ?_⟩
    obtain ⟨⟨raw, s1⟩, -, hrest⟩ := Option.bind_eq_some_iff.mp h
    cases raw with
    | error status =>
      left
      exact (congrArg (fun r => r.2.1) (Option.some.inj hrest)).symm
    | ok raw =>
      simp only at hrest
      split at hrest
      · next next hfollow =>
        obtain ⟨loc, hloc⟩ := httpResponse_follow hfollow
        exact .inr ⟨loc, next, s1, hloc, hrest⟩
      · left
        exact (congrArg (fun r => r.2.1) (Option.some.inj hrest)).symm

/-- **From a secure URL on, every request is secure.** -/
theorem getLoop_secure : ∀ (hops : ℕ) (current : List UInt8) (log : List Request) (s : State)
    (v : Verdict) (log' : List Request) (t : State), IsHttps current →
    getLoop w tls fuel cap hops current log s = some (v, log', t) →
    ∃ more, log' = log ++ more ∧ ∀ r ∈ more, r.secure = true := by
  intro hops
  induction hops with
  | zero =>
    intro current log s v log' t _ h
    exact ⟨[], by simpa using (congrArg (fun r => r.2.1) (Option.some.inj h)).symm, by simp⟩
  | succ hops ih =>
    intro current log s v log' t hcur h
    rcases getLoop_cases h with rfl | ⟨url, hurl, r, hr, hrest⟩
    · exact ⟨[], by simp, by simp⟩
    · have hsec := parseUrl_secure hurl hcur
      rcases hrest with rfl | ⟨loc, next, s', hloc, hloop⟩
      · exact ⟨[r], rfl, by simp [hr, hsec]⟩
      · have hnext : IsHttps (scopy locationCap next) :=
          isHttps_scopy (by decide) (resolveRedirect_keeps_scheme hurl hsec hloc)
        obtain ⟨more, rfl, hmore⟩ := ih _ _ _ _ _ _ hnext hloop
        refine ⟨r :: more, by simp, ?_⟩
        intro q hq
        rcases List.mem_cons.mp hq with rfl | hq
        · rw [hr, hsec]
        · exact hmore q hq

/-- **Along any chain of redirects there is no downgrade.** -/
theorem getLoop_noDowngrade : ∀ (hops : ℕ) (current : List UInt8) (log : List Request) (s : State)
    (v : Verdict) (log' : List Request) (t : State),
    getLoop w tls fuel cap hops current log s = some (v, log', t) →
    ∃ more, log' = log ++ more ∧ NoDowngrade more := by
  intro hops
  induction hops with
  | zero =>
    intro current log s v log' t h
    exact ⟨[], by simpa using (congrArg (fun r => r.2.1) (Option.some.inj h)).symm, .nil⟩
  | succ hops ih =>
    intro current log s v log' t h
    rcases getLoop_cases h with rfl | ⟨url, hurl, r, hr, hrest⟩
    · exact ⟨[], by simp, .nil⟩
    · rcases hrest with rfl | ⟨loc, next, s', hloc, hloop⟩
      · exact ⟨[r], rfl, List.pairwise_singleton _ _⟩
      · obtain ⟨more, hlog, hmore⟩ := ih _ _ _ _ _ _ hloop
        refine ⟨r :: more, by rw [hlog]; simp, List.pairwise_cons.mpr ⟨?_, hmore⟩⟩
        -- if this hop is secure, so is the next URL, and then everything after it
        intro q hq hsec
        rw [hr] at hsec
        have hnext : IsHttps (scopy locationCap next) :=
          isHttps_scopy (by decide) (resolveRedirect_keeps_scheme hurl hsec hloc)
        obtain ⟨more', hlog', hmore'⟩ := getLoop_secure _ _ _ _ _ _ _ hnext hloop
        rw [hlog] at hlog'
        rw [List.append_cancel_left hlog'] at hq
        exact hmore' q hq

end

/-- What `canon` makes of an address that starts with `https://` starts with `https://`. -/
theorem canon_isHttps {hasTls : Bool} {u url : List UInt8} {cap : ℕ}
    (h : canon hasTls u cap = some url) (hu : IsHttps (u.dropWhile isBlank)) : IsHttps url := by
  unfold canon at h
  split at h
  · simp at h
  next hcap =>
  simp only at h
  split at h
  · simp at h
  rw [if_pos (show startsCi _ (ascii "https://") = true from hu)] at h
  split at h
  · rw [← Option.some.inj h]
    exact isHttps_scopy (by omega) hu
  · simp at h

/-- **No HTTPS downgrade**, for every start URL and every server: after a request through TLS there
is none over plain TCP, and there is none at all if the URL starts with `https://` in any letter case
or is what `canon` makes of such an address. -/
theorem http_get_never_downgrades {w : World} {tls : TlsExchange} {fuel cap statusCap : ℕ}
    {url : List UInt8} {s t : State} {v : Verdict} {log : List Request}
    (h : netHttpGet w tls fuel url cap statusCap s = some (v, log, t)) :
    NoDowngrade log ∧
      ((IsHttps url ∨ ∃ hasTls u n, canon hasTls u n = some url ∧ IsHttps (u.dropWhile isBlank)) →
        ∀ r ∈ log, r.secure = true) := by
  unfold netHttpGet at h
  split at h
  · obtain rfl : [] = log := congrArg (fun r => r.2.1) (Option.some.inj h)
    exact ⟨.nil, by simp⟩
  · obtain ⟨⟨v', log', t'⟩, hloop, hr⟩ := Option.map_eq_some_iff.mp h
    obtain rfl : log' = log := congrArg (fun r => r.2.1) hr
    refine ⟨?_, fun hurl => ?_⟩
    · obtain ⟨more, hlog, hmore⟩ := getLoop_noDowngrade _ _ _ _ _ _ _ hloop
      rw [List.nil_append] at hlog
      rwa [hlog]
    · have hhttps : IsHttps url := by
        rcases hurl with hurl | ⟨hasTls, u, n, hcanon, hu⟩
        · exact hurl
        · exact canon_isHttps hcanon hu
      obtain ⟨more, hlog, hmore⟩ := getLoop_secure _ _ _ _ _ _ _
        (@isHttps_scopy _ locationCap (by decide) hhttps) hloop
      rw [List.nil_append] at hlog
      rwa [hlog]

/-- A server that redirects the first request with a relative `Location` and answers the next. -/
def redirectOnce : TlsExchange := fun hops _ _ _ s =>
  some (.ok (ascii (if hops = 4 then "HTTP/1.0 302 Found\r\nLocation: b\r\n\r\n"
    else "HTTP/1.0 200 OK\r\nContent-Length: 2\r\n\r\nhi")), s)

theorem http_get_never_downgrades_smoke :
    ∃ v log t, netHttpGet World.quiet redirectOnce 0 (ascii "https://a/") 64 64
        { State.boot with ready := true } = some (v, log, t) ∧
      log.map (·.secure) = [true, true] ∧ ∀ r ∈ log, r.secure = true := by
  have hrun : (netHttpGet World.quiet redirectOnce 0 (ascii "https://a/") 64 64
      { State.boot with ready := true }).map (fun r => r.2.1.map (·.secure)) = some [true, true] := by
    decide +kernel
  obtain ⟨⟨v, log, t⟩, h, hlog⟩ := Option.map_eq_some_iff.mp hrun
  exact ⟨v, log, t, h, hlog, (http_get_never_downgrades h).2 (.inl (by unfold IsHttps; decide))⟩

end Orion.Http
