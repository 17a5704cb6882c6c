import Orion.Vela.History

/-!
# Failed navigations

A page replaces the document, the address and the history before a redirection of its scripts is
followed.  So a navigation that fails has changed nothing (`Same`) when it fails at its own address;
when it fails behind a redirection, the pages on the way have been shown.
-/

namespace Orion.Vela

open Orion.Aster (ci cstr asterLinkAt)

/-! ## Redirections that succeed -/

/-- Loading `u` succeeds, with call number `calls` and `left` redirections that may be followed. -/
def Lands (w : Backend) (javascript tls : Bool) : ℕ → ℕ → List UInt8 → Prop
  | 0, calls, u => u ≠ [] ∧ ∃ n, canon tls u = .ok n ∧ (w.httpGet calls n).ok = true
  | left + 1, calls, u => u ≠ [] ∧ ∃ n, canon tls u = .ok n ∧ (w.httpGet calls n).ok = true ∧
      ∀ next, followed javascript tls n (cp velaRawCap (w.httpGet calls n).raw) = some next →
        Lands w javascript tls left (calls + 1) next

theorem redirect_calls (n red : List UInt8) (v : Browser) : (redirect n red v).2.calls = v.calls := by
  unfold redirect
  split
  · rfl
  · split
    · rfl
    · rfl
    · split <;> rfl

/-- A load that is possible and delivered. -/
theorem fetch_ok {w : Backend} {u n : List UInt8} {v : Browser} (hu : u ≠ [])
    (hhttp : v.canHttp = true) (hcanon : canon v.tls u = .ok n)
    (hok : (w.httpGet v.calls n).ok = true) : (fetch w u v).1 = some n := by
  rcases fetch_cases w u v with ⟨m, -, hnot⟩ | ⟨n', -, -, hcanon', heq⟩
  · exact absurd ⟨hu, hhttp, n, hcanon⟩ hnot
  · obtain rfl : n' = n := Except.ok.inj (hcanon'.symm.trans hcanon)
    rw [heq, hok]
    rfl

/-- What a redirection is followed with: the profile and the platform of before, and one more call. -/
theorem redirect_rest {w : Backend} {u n : List UInt8} {v v' : Browser} (push : Bool)
    (h : fetch w u v = (some n, v')) :
    (redirect n (commit push n v').1 (commit push n v').2).1
        = followed v.javascript v.tls n (cp velaRawCap (w.httpGet v.calls n).raw) ∧
      (redirect n (commit push n v').1 (commit push n v').2).2.features = v.features ∧
      (redirect n (commit push n v').1 (commit push n v').2).2.platform = v.platform ∧
      (redirect n (commit push n v').1 (commit push n v').2).2.calls = v.calls + 1 := by
  have hfetch := fetch_same w u v
  rw [h] at hfetch
  obtain ⟨-, -, hraw, hcalls⟩ := fetch_some h
  obtain ⟨hf, hp, hc⟩ := commit_rest push n v'
  have hsame := redirect_same n (commit push n v').1 (commit push n v').2
  refine ⟨?_, hsame.features.trans (hf.trans hfetch.features),
    hsame.platform.trans (hp.trans hfetch.platform), ?_⟩
  · rw [redirect_commit, hraw, Browser.javascript, hfetch.features, hfetch.tls]
    rfl
  · rw [redirect_calls, hc, hcalls]

/-- **Such a load succeeds.** -/
theorem navdepth_lands {w : Backend} (push : Bool) (left : ℕ) : ∀ {u : List UInt8} {v : Browser},
    v.canHttp = true → Lands w v.javascript v.tls left v.calls u →
    (navdepth w push left u v).1 = true := by
  induction left with
  | zero =>
    rintro u v hhttp ⟨hu, n, hcanon, hok⟩
    have hsome := fetch_ok hu hhttp hcanon hok
    rw [navdepth]
    generalize fetch w u v = r at hsome
    obtain ⟨n', v'⟩ := r
    simp only at hsome
    subst hsome
    rfl
  | succ left ih =>
    rintro u v hhttp ⟨hu, n, hcanon, hok, hnext⟩
    have hsome := fetch_ok hu hhttp hcanon hok
    rw [navdepth]
    cases hr : fetch w u v with
    | mk n' v' =>
      rw [hr] at hsome
      simp only at hsome
      subst hsome
      obtain ⟨hfollowed, hf, hp, hc⟩ := redirect_rest push hr
      simp only
      generalize redirect n (commit push n v').1 (commit push n v').2 = r at hfollowed hf hp hc
      obtain ⟨next, v''⟩ := r
      simp only at hfollowed hf hp hc
      cases next with
      | none => rfl
      | some next =>
        refine ih (by rw [Browser.canHttp, hp]; exact hhttp) ?_
        rw [Browser.javascript, Browser.tls, hf, hp, hc]
        exact hnext next hfollowed.symm

/-! ## Failures -/

/-- If the page of `u` is fetched and leads elsewhere by a script, that succeeds. -/
def Settles (w : Backend) (v : Browser) (u : List UInt8) : Prop :=
  v.canHttp = true → ∀ n next, canon v.tls u = .ok n → (w.httpGet v.calls n).ok = true →
    followed v.javascript v.tls n (cp velaRawCap (w.httpGet v.calls n).raw) = some next →
    Lands w v.javascript v.tls 1 (v.calls + 1) next

/-- **A navigation that fails at its own address changes nothing.** -/
theorem nav_failed {w : Backend} {u : List UInt8} {push : Bool} {v : Browser}
    (hsettles : Settles w v u) (hfalse : (nav w u push v).1 = false) :
    Same v (nav w u push v).2 := by
  have hfetch := fetch_same w u v
  unfold nav at hfalse ⊢
  rw [navdepth] at hfalse ⊢
  cases hr : fetch w u v with
  | mk n v' =>
    rw [hr] at hfetch hfalse
    cases n with
    | none => exact hfetch
    | some n =>
      -- a page was shown, so that only its redirection could fail
      exfalso
      obtain ⟨hcanon, hok, -, -⟩ := fetch_some hr
      have hhttp : v.canHttp = true := by
        rcases fetch_cases w u v with ⟨m, heq, -⟩ | ⟨n', -, hhttp, -, -⟩
        · rw [heq] at hr
          cases (Prod.mk.inj hr).1
        · exact hhttp
      obtain ⟨hfollowed, hf, hp, hc⟩ := redirect_rest push hr
      simp only at hfalse
      generalize redirect n (commit push n v').1 (commit push n v').2 = r
        at hfollowed hf hp hc hfalse
      obtain ⟨next, v''⟩ := r
      simp only at hfollowed hf hp hc
      cases next with
      | none => cases hfalse
      | some next =>
        have hlands := hsettles hhttp n next hcanon hok hfollowed.symm
        have htrue := navdepth_lands (w := w) push 1 (u := next) (v := v'')
          (by rw [Browser.canHttp, hp]; exact hhttp)
          (by rw [Browser.javascript, Browser.tls, hf, hp, hc]; exact hlands)
        rw [htrue] at hfalse
        cases hfalse

/-- The navigation operations; a link with a script is none. -/
def Navigates (v : Browser) : Op → Prop
  | .loadUrl _ | .go | .back | .forward | .reload => True
  | .activateLink x y => ∀ h ∈ asterLinkAt v.doc x y v.scroll velaUrlCap,
      ci (cstr h) (ascii "javascript:") = false
  | _ => False

/-- The address that an operation loads, if it loads one. -/
def target (v : Browser) : Op → Option (List UInt8)
  | .loadUrl u => some (cstr u)
  | .go => some (cstr v.url)
  | .back => if velaCanBack v then some (cp velaUrlCap (v.entry (v.index - 1))) else none
  | .forward => if velaCanForward v then some (cp velaUrlCap (v.entry (v.index + 1))) else none
  | .reload => if cstr v.url = [] then none else some (cstr v.url)
  | .activateLink x y =>
    match asterLinkAt v.doc x y v.scroll velaUrlCap with
    | none => none
    | some h => (resolve v.tls (cstr v.url) (cstr h)).toOption
  | _ => none

theorem moveTo_failed {w : Backend} {can : Bool} {x : ℤ} {v : Browser}
    (hsettles : can = true → Settles w v (cp velaUrlCap (v.entry x)))
    (hfalse : (moveTo w can x v).1 = false) : Same v (moveTo w can x v).2 := by
  unfold moveTo at hfalse ⊢
  split
  · exact Same.refl v
  · next hcan =>
    rw [if_neg hcan] at hfalse
    have hnav := @nav_failed w (cp velaUrlCap (v.entry x)) false v (hsettles (by simpa using hcan))
    generalize nav w (cp velaUrlCap (v.entry x)) false v = r at hnav hfalse
    obtain ⟨ok, v'⟩ := r
    cases ok with
    | false => exact hnav rfl
    | true => cases hfalse

/-- One operation that fails. -/
theorem step_failed {w : Backend} {op : Op} {v : Browser} (hop : Navigates v op)
    (hsettles : ∀ u ∈ target v op, Settles w v u) (hfalse : (step w op v).1 = false) :
    Same v (step w op v).2 := by
  cases op with
  | loadUrl u => exact nav_failed (hsettles _ rfl) hfalse
  | go => exact nav_failed (hsettles _ rfl) hfalse
  | back =>
    refine moveTo_failed (fun hcan => hsettles _ ?_) hfalse
    rw [target, if_pos hcan]
    rfl
  | forward =>
    refine moveTo_failed (fun hcan => hsettles _ ?_) hfalse
    rw [target, if_pos hcan]
    rfl
  | reload =>
    simp only [step, velaReload] at hfalse ⊢
    split at hfalse
    · next hempty =>
      rw [if_pos hempty]
      exact Same.refl v
    · next hne =>
      rw [if_neg hne]
      refine nav_failed (hsettles _ ?_) hfalse
      rw [target, if_neg hne]
      rfl
  | activateLink x y =>
    simp only [step, velaActivateLink, Navigates, target] at hfalse hop hsettles ⊢
    cases hlink : asterLinkAt v.doc x y v.scroll velaUrlCap with
    | none => exact Same.refl v
    | some h =>
      have hscript := hop h hlink
      simp only [hlink, hscript, Bool.false_eq_true, if_false] at hfalse hsettles ⊢
      cases hresolve : resolve v.tls (cstr v.url) (cstr h) with
      | ok t =>
        simp only [hresolve] at hfalse hsettles ⊢
        exact nav_failed (hsettles t rfl) hfalse
      | error m =>
        cases m with
        | none => exact Same.refl v
        | some m => exact Same.setStatus v m
  | loadHtml _ _ => exact hop.elim
  | inputChar _ => exact hop.elim
  | backspace => exact hop.elim
  | setViewportSize _ _ => exact hop.elim
  | setScroll _ => exact hop.elim
  | scrollBy _ => exact hop.elim
  | navigateAction _ => exact hop.elim
  | setFeatures _ => exact hop.elim
  | setPlatform _ => exact hop.elim

/-! ## Sessions -/

/-- **A failed navigation changes nothing but the status line and the raw buffer.**  This holds in
every session, for every navigation operation and every behaviour of `http_get`, unless a page was
delivered whose script leads to an address that then fails. -/
theorem vela_failed_navigation_unchanged (w : Backend) (width : ℤ) (p : Option PlatformOps)
    (v₀ : Browser) (ops : List Op) (op : Op)
    (hop : Navigates (session w (velaInitEx width p v₀).2 ops) op)
    (hsettles : ∀ u ∈ target (session w (velaInitEx width p v₀).2 ops) op,
      Settles w (session w (velaInitEx width p v₀).2 ops) u)
    (hfalse : (step w op (session w (velaInitEx width p v₀).2 ops)).1 = false) :
    Same (session w (velaInitEx width p v₀).2 ops)
      (step w op (session w (velaInitEx width p v₀).2 ops)).2 :=
  step_failed hop hsettles hfalse

/-- Page `http://a/` leads to `http://a/b` by a script; only the first one is there. -/
def broken : Backend where
  httpGet _ n := ⟨n = ascii "http://a/", ascii "<script>location.href='/b'</script>", ascii "404"⟩

/-- An address that is not there. -/
theorem vela_failed_navigation_unchanged_missing :
    Same (session broken (velaInitEx 720 (some httpPlatform) .zero).2 [])
      (step broken (.loadUrl (ascii "x/"))
        (session broken (velaInitEx 720 (some httpPlatform) .zero).2 [])).2 := by
  have hcanon : canon false (ascii "x/") = .ok (ascii "http://x/") := by decide +kernel
  refine vela_failed_navigation_unchanged broken 720 (some httpPlatform) .zero []
    (.loadUrl (ascii "x/")) trivial ?_ (by decide +kernel)
  intro u hu _ n next hn hok
  obtain rfl : u = ascii "x/" := (Option.some.inj hu).symm
  obtain rfl : ascii "http://x/" = n := Except.ok.inj (hcanon.symm.trans hn)
  exact absurd hok (by decide)

/-- A page whose redirection fails: the operation returns 0, but the address has changed. -/
theorem vela_failed_navigation_changes_url :
    (step broken (.loadUrl (ascii "a/"))
        (session broken (velaInitEx 720 (some httpPlatform) .zero).2 [])).1 = false ∧
      (step broken (.loadUrl (ascii "a/"))
        (session broken (velaInitEx 720 (some httpPlatform) .zero).2 [])).2.url
        ≠ (session broken (velaInitEx 720 (some httpPlatform) .zero).2 []).url := by
  decide +kernel

end Orion.Vela
