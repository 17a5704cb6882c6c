import Orion.Vela.Session

/-!
# History and displayed page

A navigation that pushes its address shows the page of the current history entry.  Going back or
forward loads the entry without pushing and then moves the index, so that it shows the page of the
entry when the entry is a complete address and its page does not lead elsewhere by a script.
-/

namespace Orion.Vela

open Orion.Aster (ci cstr)

/-! ## Redirections -/

/-- Where the scripts of a page lead, if that is followed. -/
def followed (javascript tls : Bool) (n page : List UInt8) : Option (List UInt8) :=
  let red := (preprocess javascript page).1
  if red = [] then none
  else
    match resolve tls n red with
    | .error _ => none
    | .ok next => if ci next (ascii "javascript:") then none else some next

/-- Loading a page keeps the profile, the platform and the number of calls. -/
theorem commit_rest (push : Bool) (n : List UInt8) (v : Browser) :
    (commit push n v).2.features = v.features ∧ (commit push n v).2.platform = v.platform ∧
      (commit push n v).2.calls = v.calls := by
  obtain ⟨doc, raw, hrender⟩ := render_cases (seturl v n)
  unfold commit
  simp only [hrender]
  split
  · obtain ⟨history, index, hhist⟩ := hist_cases
      { seturl v n with
        doc := doc
        raw := raw
        scroll := 0 } n
    rw [hhist]
    exact ⟨rfl, rfl, rfl⟩
  · exact ⟨rfl, rfl, rfl⟩

theorem commit_redirection (push : Bool) (n : List UInt8) (v : Browser) :
    (commit push n v).1 = (preprocess v.javascript v.raw).1 := rfl

/-- A redirection depends on the page, the profile and the platform. -/
theorem redirect_commit (push : Bool) (n : List UInt8) (v : Browser) :
    (redirect n (commit push n v).1 (commit push n v).2).1
      = followed v.javascript v.tls n v.raw := by
  have htls : (commit push n v).2.tls = v.tls := by
    rw [Browser.tls, Browser.tls, (commit_rest push n v).2.1]
  unfold redirect followed
  simp only [commit_redirection, htls]
  split
  · rfl
  · cases resolve v.tls n (preprocess v.javascript v.raw).1 with
    | error m => cases m <;> rfl
    | ok next =>
      simp only
      split <;> rfl

/-- The address of a page that was loaded. -/
theorem commit_url (push : Bool) {n : List UInt8} (hn : UrlString n) (v : Browser) :
    (commit push n v).2.url = n := by
  obtain ⟨doc, raw, hrender⟩ := render_cases (seturl v n)
  unfold commit
  simp only [hrender]
  split
  · obtain ⟨history, index, hhist⟩ := hist_cases
      { seturl v n with
        doc := doc
        raw := raw
        scroll := 0 } n
    rw [hhist]
    exact cp_eq_self hn
  · exact cp_eq_self hn

/-! ## Pushing -/

/-- The index is valid and its entry is the address of the displayed page. -/
def InStep (v : Browser) : Prop :=
  (0 ≤ v.index ∧ v.index < v.history.length) ∧ v.entry v.index = cstr v.url

theorem InStep.congr {v v' : Browser} (h : InStep v) (hs : Same v v') : InStep v' := by
  rw [InStep, hs.index, hs.url, hs.history, Browser.entry, hs.history]
  exact h

theorem commit_inStep {v : Browser} (h : HistoryOk v) {n : List UInt8} (hne : n ≠ [])
    (hn : UrlString n) : InStep (commit true n v).2 := by
  have hurl := commit_url true hn v
  obtain ⟨doc, raw, hrender⟩ := render_cases (seturl v n)
  have hhistory : HistoryOk (render (seturl v n)).2 := by
    rw [hrender]
    exact h.congr rfl rfl
  have hcommit : (commit true n v).2 = hist (render (seturl v n)).2 n := rfl
  obtain ⟨hok, hentry⟩ := hist_spec hhistory n
  obtain ⟨hge, heq⟩ := hentry hne hn
  rw [InStep, hurl, hcommit, heq, cstr_eq_self hn.2]
  exact ⟨⟨hge, hok.index_lt⟩, rfl⟩

theorem fetch_some {w : Backend} {u n : List UInt8} {v v' : Browser}
    (h : fetch w u v = (some n, v')) : canon v.tls u = .ok n ∧
      (w.httpGet v.calls n).ok = true ∧ v'.raw = cp velaRawCap (w.httpGet v.calls n).raw ∧
      v'.calls = v.calls + 1 := by
  rcases fetch_cases w u v with ⟨m, heq, -⟩ | ⟨n', -, -, hcanon, heq⟩
  · rw [heq] at h
    cases (Prod.mk.inj h).1
  · rw [heq] at h
    obtain ⟨hsome, hv⟩ := Prod.mk.inj h
    split at hsome
    · next hok =>
      obtain rfl := Option.some.inj hsome
      rw [← hv]
      exact ⟨hcanon, hok, rfl, rfl⟩
    · cases hsome

/-- **A navigation that pushes** shows the page of the current entry. -/
theorem navdepth_inStep (w : Backend) (left : ℕ) (u : List UInt8) {v : Browser} (h : HistoryOk v) :
    (navdepth w true left u v).1 = true → InStep (navdepth w true left u v).2 := by
  refine navdepth_rule (P := HistoryOk) (Q := fun r => r.1 = true → InStep r.2) ?_ ?_ left u v h
  · intro u v v' _ _ hfalse
    cases hfalse
  · intro u n v v' v'' hv hr hsame
    have hfetch := fetch_same w u v
    rw [hr] at hfetch
    obtain ⟨hne, hn⟩ := canon_ok (fetch_some hr).1
    have hhist : HistoryOk v' := hv.congr hfetch.history hfetch.index
    exact ⟨fun _ => (commit_inStep hhist hne hn).congr hsame,
      (commit_ok (q := True) hhist true n).history.congr hsame.history hsame.index⟩

/-! ## Moving -/

/-- An address with its scheme, as `canon` makes them. -/
def Complete (u : List UInt8) : Prop := ci u (ascii "http://") = true ∨ ci u (ascii "https://") = true

/-- A complete address is opened as it is. -/
theorem canon_complete {tls : Bool} {u n : List UInt8} (h : Complete u) (hu : UrlString u)
    (hn : canon tls u = .ok n) : n = u := by
  have hhead : ∀ p, ci u (104 :: p) = true → u.dropWhile isBlank = u ∧ u ≠ [] := by
    intro p hci
    cases u with
    | nil => cases hci
    | cons c u =>
      have hc : isBlank c = false := by
        rw [isBlank, Bool.or_eq_false_iff, decide_eq_false_iff_not, decide_eq_false_iff_not]
        constructor
        · rintro rfl
          simp [ci, startsCi, lowerAscii, List.isPrefixOf] at hci
        · rintro rfl
          simp [ci, startsCi, lowerAscii, List.isPrefixOf] at hci
      exact ⟨by rw [List.dropWhile_cons, hc]; rfl, by simp⟩
  obtain ⟨hdrop, hne⟩ : u.dropWhile isBlank = u ∧ u ≠ [] := h.elim (hhead _) (hhead _)
  unfold canon at hn
  simp only [hdrop, hne, if_false] at hn
  split at hn
  · split at hn
    · obtain rfl := Except.ok.inj hn
      exact cp_eq_self hu
    · cases hn
  · next hnot =>
    have hhttp : ci u (ascii "http://") = true := h.resolve_right hnot
    rw [if_pos hhttp] at hn
    obtain rfl := Except.ok.inj hn
    exact cp_eq_self hu

/-- The page that is delivered for an entry. -/
def entryPage (w : Backend) (v : Browser) (x : ℤ) : List UInt8 :=
  cp velaRawCap (w.httpGet v.calls (v.entry x)).raw

/-- The entry is a complete address, and its page does not lead elsewhere by a script. -/
def Direct (w : Backend) (v : Browser) (x : ℤ) : Prop :=
  Complete (v.entry x) ∧ followed v.javascript v.tls (v.entry x) (entryPage w v x) = none

/-- Loading a complete address whose page is not redirected shows that page. -/
theorem nav_direct {w : Backend} {u : List UInt8} {push : Bool} {v : Browser} (hc : Complete u)
    (hu : UrlString u)
    (hpage : followed v.javascript v.tls u (cp velaRawCap (w.httpGet v.calls u).raw) = none)
    (htrue : (nav w u push v).1 = true) : (nav w u push v).2.url = u := by
  unfold nav at htrue ⊢
  rw [navdepth] at htrue ⊢
  cases hr : fetch w u v with
  | mk n v' =>
    have hfetch := fetch_same w u v
    rw [hr] at hfetch htrue
    cases n with
    | none => cases htrue
    | some n =>
      obtain ⟨hcanon, -, hraw, -⟩ := fetch_some hr
      obtain rfl := canon_complete hc hu hcanon
      have hnone : (redirect n (commit push n v').1 (commit push n v').2).1 = none := by
        rw [redirect_commit, hraw, Browser.javascript, hfetch.features, hfetch.tls]
        exact hpage
      have hsame := redirect_same n (commit push n v').1 (commit push n v').2
      have hurl := commit_url push hu v'
      simp only
      generalize redirect n (commit push n v').1 (commit push n v').2 = r at hnone hsame
      obtain ⟨next, v''⟩ := r
      simp only at hnone hsame
      subst hnone
      exact (finish_same v'').url.trans (hsame.url.trans hurl)

/-- **Going back or forward** to such an entry shows its page. -/
theorem moveTo_inStep {w : Backend} {can : Bool} {x : ℤ} {v : Browser} (h : HistoryOk v)
    (hx : can = true → 0 ≤ x ∧ x < v.history.length) (hdirect : Direct w v x)
    (htrue : (moveTo w can x v).1 = true) : InStep (moveTo w can x v).2 := by
  unfold moveTo at htrue ⊢
  split at htrue
  · cases htrue
  · next hcan =>
    rw [if_neg hcan]
    obtain ⟨hge, hlt⟩ := hx (by simpa using hcan)
    have hentry : v.entry x ∈ v.history := by
      rw [Browser.entry, List.getD_eq_getElem?_getD, List.getElem?_eq_getElem (by omega)]
      exact List.getElem_mem _
    have hu := h.entries _ hentry
    rw [cp_eq_self hu] at htrue ⊢
    have hnav := @nav_direct w (v.entry x) false v hdirect.1 hu hdirect.2
    have hhist := navdepth_history w 2 (v.entry x) v
    change (nav w (v.entry x) false v).2.history = _ ∧ _ at hhist
    generalize nav w (v.entry x) false v = r at hnav hhist htrue
    obtain ⟨ok, v'⟩ := r
    cases ok with
    | false => cases htrue
    | true =>
      have hurl : v'.url = v.entry x := hnav rfl
      refine ⟨⟨hge, ?_⟩, ?_⟩
      · show x < v'.history.length
        rw [show v'.history = v.history from hhist.1]
        exact hlt
      · show v'.history.getD x.toNat [] = cstr v'.url
        rw [hurl, cstr_eq_self hu.2, show v'.history = v.history from hhist.1]
        rfl

/-! ## Sessions -/

/-- What a step of the session must meet: going back or forward leads to a complete address whose page
does not lead elsewhere. -/
def StepDirect (w : Backend) (v : Browser) : Op → Prop
  | .back => Direct w v (v.index - 1)
  | .forward => Direct w v (v.index + 1)
  | _ => True

/-- **History and page stay in step.**  In every session, `vela_load_url` shows the page of the current
entry whenever it succeeds, and so do `vela_back` and `vela_forward` when the entry is a complete
address and its page does not lead elsewhere by a script. -/
theorem vela_history_in_step (w : Backend) (width : ℤ) (p : Option PlatformOps) (v₀ : Browser)
    (ops : List Op) (op : Op) (hop : (∃ u, op = .loadUrl u) ∨ op = .back ∨ op = .forward)
    (hdirect : StepDirect w (session w (velaInitEx width p v₀).2 ops) op)
    (htrue : (step w op (session w (velaInitEx width p v₀).2 ops)).1 = true) :
    InStep (step w op (session w (velaInitEx width p v₀).2 ops)).2 := by
  have hok : SessionOk False (session w (velaInitEx width p v₀).2 ops) :=
    session_ok w width p v₀ ops False.elim
  have h := hok.history
  generalize session w (velaInitEx width p v₀).2 ops = v at hdirect htrue h ⊢
  have hlt := h.index_lt
  rcases hop with ⟨u, rfl⟩ | rfl | rfl
  · exact navdepth_inStep w 2 _ h htrue
  · refine moveTo_inStep h (fun hcan => ?_) hdirect htrue
    have hpos : v.index > 0 := by simpa [velaCanBack] using hcan
    omega
  · refine moveTo_inStep h (fun hcan => ?_) hdirect htrue
    have hpos : 0 ≤ v.index ∧ v.index + 1 < v.history.length := by
      simpa [velaCanForward] using hcan
    omega

/-- Page `http://a/` leads to `http://c/` by a script; the other pages are plain. -/
def detour : Backend where
  httpGet _ n := ⟨true,
    if n = ascii "http://a/" then ascii "<script>location.href='http://c/'</script>" else ascii "<p>c",
    ascii "200"⟩

/-- Two plain pages, and back. -/
theorem vela_history_in_step_back :
    InStep (step detour .back (session detour (velaInitEx 720 (some httpPlatform) .zero).2
      [.loadUrl (ascii "b/"), .loadUrl (ascii "c/")])).2 :=
  vela_history_in_step detour 720 (some httpPlatform) .zero
    [.loadUrl (ascii "b/"), .loadUrl (ascii "c/")] .back (.inr (.inl rfl))
    ⟨.inl (by decide +kernel), by decide +kernel⟩ (by decide +kernel)

/-- A page that leads elsewhere, and back: entry 0 is `http://a/`, but the page of `http://c/` is
shown. -/
theorem vela_back_out_of_step :
    (step detour .back (session detour (velaInitEx 720 (some httpPlatform) .zero).2
        [.loadUrl (ascii "a/")])).1 = true ∧
      ¬ InStep (step detour .back (session detour (velaInitEx 720 (some httpPlatform) .zero).2
        [.loadUrl (ascii "a/")])).2 := by
  refine ⟨by decide +kernel, ?_⟩
  rintro ⟨-, hentry⟩
  revert hentry
  decide +kernel

end Orion.Vela
