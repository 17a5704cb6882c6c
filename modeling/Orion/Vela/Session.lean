import Orion.Vela.Browser

/-!
# Sessions

A session is a list of operations after `vela_init_ex`.  `SessionOk` is what every operation keeps
true of the history, the address and the scroll position; only a typed zero byte makes the address
differ from its recorded length.
-/

namespace Orion.Vela

open Orion.Aster (ci cstr Document asterParseHtml asterLayout asterDocumentHeight asterLinkAt)

/-! ## Operations -/

inductive Op where
  | loadUrl (u : List UInt8)
  | loadHtml (h : List UInt8) (u : Option (List UInt8))
  | go
  | back
  | forward
  | reload
  | activateLink (x y : ℤ)
  | inputChar (c : UInt8)
  | backspace
  | setViewportSize (w h : ℤ)
  | setScroll (y : ℤ)
  | scrollBy (d : ℤ)
  | navigateAction (action : VelaNavAction)
  | setFeatures (f : ℕ)
  | setPlatform (p : Option PlatformOps)
  deriving Repr, DecidableEq

/-- One call; an operation that returns nothing succeeds. -/
def step (w : Backend) (op : Op) (v : Browser) : Bool × Browser :=
  match op with
  | .loadUrl u => velaLoadUrl w u v
  | .loadHtml h u => velaLoadHtml h u v
  | .go => velaGo w v
  | .back => velaBack w v
  | .forward => velaForward w v
  | .reload => velaReload w v
  | .activateLink x y => velaActivateLink w x y v
  | .inputChar c => (true, velaInputChar c v)
  | .backspace => (true, velaBackspace v)
  | .setViewportSize width height => (true, velaSetViewportSize width height v)
  | .setScroll y => (true, velaSetScroll y v)
  | .scrollBy d => (true, velaScrollBy d v)
  | .navigateAction action => velaNavigateAction w action v
  | .setFeatures f => (true, velaSetFeatures f v)
  | .setPlatform p => velaSetPlatform p v

/-- The state after a list of calls. -/
def session (w : Backend) (v : Browser) (ops : List Op) : Browser :=
  ops.foldl (fun v op => (step w op v).2) v

/-- What every operation keeps is kept by a session. -/
theorem session_induction {w : Backend} {P : Browser → Prop} {Q : Op → Prop}
    (hstep : ∀ op v, Q op → P v → P (step w op v).2) : ∀ (ops : List Op) {v : Browser},
    (∀ op ∈ ops, Q op) → P v → P (session w v ops) := by
  intro ops
  induction ops with
  | nil => exact fun _ hv => hv
  | cons op ops ih =>
    intro v hops hv
    exact ih (fun o ho => hops o (List.mem_cons_of_mem _ ho)) (hstep op v (hops op (by simp)) hv)

/-! ## Strings -/

/-- A string that fits an address buffer. -/
def UrlString (u : List UInt8) : Prop := u.length ≤ 255 ∧ 0 ∉ u

theorem zero_not_mem_cstr (s : List UInt8) : 0 ∉ cstr s := by
  intro h
  have := List.mem_takeWhile_imp h
  simp at this

theorem cp_urlString (s : List UInt8) : UrlString (cp velaUrlCap s) :=
  ⟨List.length_take_le _ _, fun h => zero_not_mem_cstr s (List.mem_of_mem_take h)⟩

theorem cp_eq_self {u : List UInt8} (h : UrlString u) : cp velaUrlCap u = u := by
  rw [cp, cstr_eq_self h.2]
  exact List.take_of_length_le h.1

/-! ## The history -/

structure HistoryOk (v : Browser) : Prop where
  index_ge : -1 ≤ v.index
  index_lt : v.index < v.history.length
  count_le : v.history.length ≤ 12
  index_neg : v.index = -1 ↔ v.history.length = 0
  entries : ∀ u ∈ v.history, UrlString u

/-- The history and the index are all that matters. -/
theorem HistoryOk.congr {v v' : Browser} (h : HistoryOk v) (hh : v'.history = v.history)
    (hi : v'.index = v.index) : HistoryOk v' := by
  refine ⟨?_, ?_, ?_, ?_, ?_⟩
  · rw [hi]; exact h.index_ge
  · rw [hi, hh]; exact h.index_lt
  · rw [hh]; exact h.count_le
  · rw [hi, hh]; exact h.index_neg
  · rw [hh]; exact h.entries

/-- **A new entry** is the last one, and the current one. -/
theorem hist_spec {v : Browser} (h : HistoryOk v) (u : List UInt8) :
    HistoryOk (hist v u) ∧
      (u ≠ [] → UrlString u → 0 ≤ (hist v u).index ∧ (hist v u).entry (hist v u).index = u) := by
  have hge := h.index_ge
  have hlt := h.index_lt
  have hcount := h.count_le
  unfold hist
  split
  · next hu => exact ⟨h, fun hne => absurd hu hne⟩
  split
  · next hsame => exact ⟨h, fun _ _ => hsame⟩
  -- the entries up to the current one stay
  have hkept : ∃ kept, kept = (if v.index + 1 < v.history.length then
      v.history.take (v.index + 1).toNat else v.history) ∧ kept.length ≤ 12 ∧
      ∀ u ∈ kept, UrlString u := by
    refine ⟨_, rfl, ?_⟩
    split
    · refine ⟨?_, fun u hu => h.entries u (List.mem_of_mem_take hu)⟩
      rw [List.length_take]
      omega
    · exact ⟨hcount, h.entries⟩
  obtain ⟨kept, hkept, hlen, hentries⟩ := hkept
  simp only [← hkept]
  have hnew : ∀ {l : List (List UInt8)}, (∀ u ∈ l, UrlString u) →
      ∀ x ∈ l ++ [cp velaUrlCap u], UrlString x := by
    intro l hl x hx
    rcases List.mem_append.mp hx with hx | hx
    · exact hl x hx
    · rw [List.mem_singleton.mp hx]
      exact cp_urlString u
  split
  · next hroom =>
    have hmax : kept.length < 12 := hroom
    refine ⟨⟨?_, ?_, ?_, ?_, hnew hentries⟩, fun _ hu => ⟨?_, ?_⟩⟩
    · show -1 ≤ (kept.length : ℤ)
      omega
    · show (kept.length : ℤ) < _
      simp
    · simp only [List.length_append, List.length_singleton]
      omega
    · simp only [List.length_append, List.length_singleton]
      omega
    · show 0 ≤ (kept.length : ℤ)
      omega
    · show (kept ++ [cp velaUrlCap u]).getD (kept.length : ℤ).toNat [] = u
      rw [Int.toNat_natCast, List.getD_eq_getElem?_getD, List.getElem?_append_right le_rfl]
      simpa using cp_eq_self hu
  · next hfull =>
    have hmax : kept.length = 12 := by
      have : ¬ kept.length < 12 := hfull
      omega
    have hlen' : (kept.drop 1 ++ [cp velaUrlCap u]).length = 12 := by
      simp only [List.length_append, List.length_drop, List.length_singleton]
      omega
    refine ⟨⟨?_, ?_, ?_, ?_, hnew fun x hx => hentries x (List.mem_of_mem_drop hx)⟩,
      fun _ hu => ⟨?_, ?_⟩⟩
    · show -1 ≤ ((12 : ℕ) : ℤ) - 1
      omega
    · show ((12 : ℕ) : ℤ) - 1 < ((kept.drop 1 ++ [cp velaUrlCap u]).length : ℤ)
      rw [hlen']
      omega
    · show (kept.drop 1 ++ [cp velaUrlCap u]).length ≤ 12
      omega
    · show ((12 : ℕ) : ℤ) - 1 = -1 ↔ (kept.drop 1 ++ [cp velaUrlCap u]).length = 0
      omega
    · show 0 ≤ ((12 : ℕ) : ℤ) - 1
      omega
    · show (kept.drop 1 ++ [cp velaUrlCap u]).getD (((12 : ℕ) : ℤ) - 1).toNat [] = u
      have hdrop : (kept.drop 1).length = 11 := by
        rw [List.length_drop]
        omega
      have hidx : (((12 : ℕ) : ℤ) - 1).toNat = (kept.drop 1).length := by
        rw [hdrop]
        rfl
      rw [hidx, List.getD_eq_getElem?_getD, List.getElem?_append_right le_rfl]
      simpa using cp_eq_self hu

/-! ## Steps of a navigation -/

/-- Nothing has changed but the status line, the raw buffer and the number of calls. -/
structure Same (v v' : Browser) : Prop where
  doc : v'.doc = v.doc
  url : v'.url = v.url
  history : v'.history = v.history
  index : v'.index = v.index
  scroll : v'.scroll = v.scroll
  viewport : v'.viewport = v.viewport
  viewportH : v'.viewportH = v.viewportH
  features : v'.features = v.features
  platform : v'.platform = v.platform

theorem Same.refl (v : Browser) : Same v v := ⟨rfl, rfl, rfl, rfl, rfl, rfl, rfl, rfl, rfl⟩

theorem Same.trans {a b c : Browser} (hab : Same a b) (hbc : Same b c) : Same a c :=
  ⟨hbc.doc.trans hab.doc, hbc.url.trans hab.url, hbc.history.trans hab.history,
    hbc.index.trans hab.index, hbc.scroll.trans hab.scroll, hbc.viewport.trans hab.viewport,
    hbc.viewportH.trans hab.viewportH, hbc.features.trans hab.features,
    hbc.platform.trans hab.platform⟩

theorem Same.of_fields (v : Browser) (raw status : List UInt8) (calls : ℕ) :
    Same v { v with raw := raw, status := status, calls := calls } :=
  ⟨rfl, rfl, rfl, rfl, rfl, rfl, rfl, rfl, rfl⟩

theorem Same.setStatus (v : Browser) (s : List UInt8) : Same v (v.setStatus s) :=
  Same.of_fields v _ _ _

theorem Same.tls {v v' : Browser} (h : Same v v') : v'.tls = v.tls := by
  rw [Browser.tls, Browser.tls, h.platform]

/-- **Everything `fetch` can do**: it fails before the call, or it makes the call. -/
theorem fetch_cases (w : Backend) (u : List UInt8) (v : Browser) :
    (∃ m, fetch w u v = (none, v.setStatus m) ∧
      ¬ (u ≠ [] ∧ v.canHttp = true ∧ ∃ n, canon v.tls u = .ok n)) ∨
    ∃ n, u ≠ [] ∧ v.canHttp = true ∧ canon v.tls u = .ok n ∧
      fetch w u v = (if (w.httpGet v.calls n).ok then some n else none,
        { v with
          raw := cp velaRawCap (w.httpGet v.calls n).raw
          status := cp velaStatusCap (w.httpGet v.calls n).status
          calls := v.calls + 1 }) := by
  unfold fetch
  by_cases hu : u = []
  · rw [if_pos hu]
    exact .inl ⟨_, rfl, fun h => h.1 hu⟩
  rw [if_neg hu]
  by_cases hhttp : v.canHttp = false
  · rw [if_pos hhttp]
    exact .inl ⟨_, rfl, fun h => by simp [hhttp] at h⟩
  rw [if_neg hhttp]
  cases hcanon : canon v.tls u with
  | error m => exact .inl ⟨m, rfl, fun h => by simp at h⟩
  | ok n => exact .inr ⟨n, hu, by simpa using hhttp, rfl, rfl⟩

theorem fetch_same (w : Backend) (u : List UInt8) (v : Browser) : Same v (fetch w u v).2 := by
  rcases fetch_cases w u v with ⟨m, heq, -⟩ | ⟨n, -, -, -, heq⟩
  · rw [heq]
    exact Same.setStatus v m
  · rw [heq]
    exact Same.of_fields v _ _ _

/-- Rendering replaces the document and goes to its top. -/
theorem render_cases (v : Browser) : ∃ doc raw, (render v).2 =
    { v with
      doc := doc
      raw := raw
      scroll := 0 } := by
  unfold render
  simp only
  split
  · exact ⟨_, _, rfl⟩
  · exact ⟨_, _, rfl⟩

theorem redirect_same (n red : List UInt8) (v : Browser) : Same v (redirect n red v).2 := by
  unfold redirect
  split
  · exact Same.refl v
  · split
    · exact Same.refl v
    · exact Same.setStatus v _
    · split <;> exact Same.refl v

theorem finish_same (v : Browser) : Same v (finish v) := by
  unfold finish
  split
  · exact Same.refl v
  · exact Same.of_fields v _ _ _

/-- **The rule for navigations.**  `P` holds before each load, `Q` of the outcome: it is enough to look
at a load that fails, and at a page that was loaded. -/
theorem navdepth_rule {w : Backend} {push : Bool} {P : Browser → Prop} {Q : Bool × Browser → Prop}
    (hfail : ∀ u v v', P v → fetch w u v = (none, v') → Q (false, v'))
    (hshow : ∀ u n v v' v'', P v → fetch w u v = (some n, v') → Same (commit push n v').2 v'' →
      Q (true, v'') ∧ P v'') :
    ∀ (left : ℕ) (u : List UInt8) (v : Browser), P v → Q (navdepth w push left u v) := by
  intro left
  induction left with
  | zero =>
    intro u v hv
    rw [navdepth]
    cases hr : fetch w u v with
    | mk n v' =>
      cases n with
      | none => exact hfail u v v' hv hr
      | some n => exact (hshow u n v v' _ hv hr (finish_same _)).1
  | succ left ih =>
    intro u v hv
    rw [navdepth]
    cases hr : fetch w u v with
    | mk n v' =>
      cases n with
      | none => exact hfail u v v' hv hr
      | some n =>
        have hsame := redirect_same n (commit push n v').1 (commit push n v').2
        simp only
        generalize redirect n (commit push n v').1 (commit push n v').2 = r at hsame ⊢
        obtain ⟨next, v''⟩ := r
        cases next with
        | none => exact (hshow u n v v' _ hv hr (hsame.trans (finish_same v''))).1
        | some next => exact ih next v'' (hshow u n v v' v'' hv hr hsame).2

/-- The address that `canon` makes. -/
theorem canon_ok {tls : Bool} {u n : List UInt8} (h : canon tls u = .ok n) :
    n ≠ [] ∧ UrlString n := by
  have hscheme : ∀ {u p : List UInt8}, ci u (104 :: p) = true → cp velaUrlCap u ≠ [] := by
    intro u p hci
    cases u with
    | nil => cases hci
    | cons c u =>
      have hc : c ≠ 0 := by
        rintro rfl
        simp [ci, startsCi, lowerAscii, List.isPrefixOf] at hci
      simp [cp, cstr, velaUrlCap, hc]
  unfold canon at h
  simp only at h
  generalize u.dropWhile isBlank = u at h
  split at h
  · cases h
  split at h
  · next hci =>
    split at h
    · obtain rfl := Except.ok.inj h
      exact ⟨hscheme hci, cp_urlString u⟩
    · cases h
  split at h
  · next hci =>
    obtain rfl := Except.ok.inj h
    exact ⟨hscheme hci, cp_urlString u⟩
  split at h
  · cases h
  split at h
  · cases h
  · obtain rfl := Except.ok.inj h
    have hstart : cp velaUrlCap (ascii "http://") = ascii "http://" := by decide
    rw [hstart, cat]
    refine ⟨by simp [ascii], ?_, ?_⟩
    · rw [List.length_append]
      have h1 : (ascii "http://").length = 7 := by decide
      have h2 := List.length_take_le (velaUrlCap - 1 - (ascii "http://").length) (cstr u)
      rw [h1] at h2 ⊢
      simp only [velaUrlCap] at h2 ⊢
      omega
    · intro hmem
      rcases List.mem_append.mp hmem with hmem | hmem
      · revert hmem
        decide
      · exact zero_not_mem_cstr u (List.mem_of_mem_take hmem)

/-! ## The invariant -/

/-- The address has its recorded length. -/
def UrlOk (v : Browser) : Prop := v.url.length ≤ 255 ∧ (cstr v.url).length = v.url.length

/-- The scroll position is on the page. -/
def ScrollOk (v : Browser) : Prop :=
  0 ≤ v.scroll ∧ v.scroll ≤ max 0 (asterDocumentHeight v.doc - v.viewportH + 24)

/-- The invariant; `q` says that no zero byte was typed. -/
structure SessionOk (q : Prop) (v : Browser) : Prop where
  history : HistoryOk v
  url : q → UrlOk v
  scroll : ScrollOk v

section

variable {q : Prop}

theorem UrlOk.of_urlString {v : Browser} (h : UrlString v.url) : UrlOk v :=
  ⟨h.1, by rw [cstr_eq_self h.2]⟩

theorem UrlOk.urlString {v : Browser} (h : UrlOk v) : UrlString v.url := by
  have hstart : cstr v.url <+: v.url := List.takeWhile_prefix _
  have heq := hstart.eq_of_length h.2
  exact ⟨h.1, heq ▸ zero_not_mem_cstr v.url⟩

theorem ScrollOk.of_zero {v : Browser} (h : v.scroll = 0) : ScrollOk v := by
  rw [ScrollOk, h]
  exact ⟨le_rfl, le_max_left _ _⟩

theorem SessionOk.congr {v v' : Browser} (h : SessionOk q v) (hs : Same v v') :
    SessionOk q v' := by
  refine ⟨h.history.congr hs.history hs.index, ?_, ?_⟩
  · intro hq
    rw [UrlOk, hs.url]
    exact h.url hq
  · rw [ScrollOk, hs.scroll, hs.doc, hs.viewportH]
    exact h.scroll

theorem hist_cases (v : Browser) (u : List UInt8) : ∃ history index, hist v u =
    { v with
      history := history
      index := index } := by
  unfold hist
  simp only
  repeat' split
  all_goals exact ⟨_, _, rfl⟩

theorem hist_ok {v : Browser} (h : SessionOk q v) (u : List UInt8) : SessionOk q (hist v u) := by
  have hspec := (hist_spec h.history u).1
  obtain ⟨history, index, heq⟩ := hist_cases v u
  rw [heq] at hspec ⊢
  exact ⟨hspec, h.url, h.scroll⟩

/-- A page that is loaded keeps the history and has an address and a scroll position of its own. -/
theorem commit_ok {v : Browser} (h : HistoryOk v) (push : Bool) (n : List UInt8) :
    SessionOk q (commit push n v).2 := by
  obtain ⟨doc, raw, hrender⟩ := render_cases (seturl v n)
  have hsession : SessionOk q (render (seturl v n)).2 := by
    rw [hrender]
    exact ⟨h.congr rfl rfl, fun _ => .of_urlString (cp_urlString n), .of_zero rfl⟩
  unfold commit
  simp only
  split
  · exact hist_ok hsession n
  · exact hsession

/-- **A navigation keeps the invariant**: it fails with the page as it was, or shows a new one. -/
theorem navdepth_ok (w : Backend) (push : Bool) (left : ℕ) (u : List UInt8) {v : Browser}
    (h : SessionOk q v) : SessionOk q (navdepth w push left u v).2 := by
  refine navdepth_rule (P := SessionOk q) (Q := fun r => SessionOk q r.2) ?_ ?_ left u v h
  · intro u v v' hv hr
    have hsame := fetch_same w u v
    rw [hr] at hsame
    exact hv.congr hsame
  · intro u n v v' v'' hv hr hsame
    have hfetch := fetch_same w u v
    rw [hr] at hfetch
    have hcommit : SessionOk q v'' := (commit_ok (hv.congr hfetch).history push n).congr hsame
    exact ⟨hcommit, hcommit⟩

/-- A navigation that pushes nothing keeps the history and the index. -/
theorem navdepth_history (w : Backend) (left : ℕ) (u : List UInt8) (v : Browser) :
    (navdepth w false left u v).2.history = v.history ∧
      (navdepth w false left u v).2.index = v.index := by
  refine navdepth_rule (P := fun x => x.history = v.history ∧ x.index = v.index)
    (Q := fun r => r.2.history = v.history ∧ r.2.index = v.index) ?_ ?_ left u v ⟨rfl, rfl⟩
  · rintro u x x' ⟨hh, hi⟩ hr
    have hsame := fetch_same w u x
    rw [hr] at hsame
    exact ⟨hsame.history.trans hh, hsame.index.trans hi⟩
  · rintro u n x x' x'' ⟨hh, hi⟩ hr hsame
    have hfetch := fetch_same w u x
    rw [hr] at hfetch
    have hcommit : (commit false n x').2.history = x'.history ∧
        (commit false n x').2.index = x'.index := by
      obtain ⟨doc, raw, hrender⟩ := render_cases (seturl x' n)
      show (render (seturl x' n)).2.history = _ ∧ (render (seturl x' n)).2.index = _
      rw [hrender]
      exact ⟨rfl, rfl⟩
    have hall : x''.history = v.history ∧ x''.index = v.index :=
      ⟨hsame.history.trans (hcommit.1.trans (hfetch.history.trans hh)),
        hsame.index.trans (hcommit.2.trans (hfetch.index.trans hi))⟩
    exact ⟨hall, hall⟩

theorem moveTo_ok (w : Backend) {can : Bool} {x : ℤ} {v : Browser} (h : SessionOk q v)
    (hx : can = true → 0 ≤ x ∧ x < v.history.length) : SessionOk q (moveTo w can x v).2 := by
  unfold moveTo
  split
  · exact h
  · next hcan =>
    obtain ⟨hge, hlt⟩ := hx (by simpa using hcan)
    have hnav : SessionOk q (nav w (cp velaUrlCap (v.entry x)) false v).2 :=
      navdepth_ok w false 2 _ h
    have hhist := (navdepth_history w 2 (cp velaUrlCap (v.entry x)) v).1
    change (nav w (cp velaUrlCap (v.entry x)) false v).2.history = _ at hhist
    generalize nav w (cp velaUrlCap (v.entry x)) false v = r at hnav hhist
    obtain ⟨ok, v'⟩ := r
    simp only at hnav hhist
    cases ok with
    | false => exact hnav
    | true =>
      have hlen : v'.history.length = v.history.length := by rw [hhist]
      refine ⟨⟨?_, ?_, hnav.history.count_le, ?_, hnav.history.entries⟩, hnav.url, hnav.scroll⟩
      · show -1 ≤ x
        omega
      · show x < v'.history.length
        omega
      · show x = -1 ↔ v'.history.length = 0
        omega

/-- The scroll position is clamped, whatever is asked for. -/
theorem velaSetScroll_ok {v : Browser} (hh : HistoryOk v) (hu : q → UrlOk v) (y : ℤ) :
    SessionOk q (velaSetScroll y v) := by
  refine ⟨hh.congr rfl rfl, hu, ?_⟩
  unfold ScrollOk velaSetScroll
  simp only
  constructor
  · repeat' split
    all_goals omega
  · repeat' split
    all_goals omega

theorem velaBack_ok (w : Backend) {v : Browser} (h : SessionOk q v) :
    SessionOk q (velaBack w v).2 := by
  refine moveTo_ok w h fun hcan => ?_
  have hpos : v.index > 0 := by simpa [velaCanBack] using hcan
  have hlt := h.history.index_lt
  omega

theorem velaForward_ok (w : Backend) {v : Browser} (h : SessionOk q v) :
    SessionOk q (velaForward w v).2 := by
  refine moveTo_ok w h fun hcan => ?_
  have hpos : 0 ≤ v.index ∧ v.index + 1 < v.history.length := by
    simpa [velaCanForward] using hcan
  omega

theorem velaReload_ok (w : Backend) {v : Browser} (h : SessionOk q v) :
    SessionOk q (velaReload w v).2 := by
  unfold velaReload
  split
  · exact h
  · exact navdepth_ok w false 2 _ h

theorem velaLoadHtml_ok (html : List UInt8) (u : Option (List UInt8)) {v : Browser}
    (h : SessionOk q v) : SessionOk q (velaLoadHtml html u v).2 := by
  unfold velaLoadHtml
  simp only
  obtain ⟨doc, raw, hrender⟩ := render_cases
    (seturl { v with raw := cp velaRawCap html } (u.getD (ascii "about:local")))
  refine hist_ok ?_ _
  rw [hrender]
  exact ⟨h.history.congr rfl rfl, fun _ => .of_urlString (cp_urlString _), .of_zero rfl⟩

theorem velaActivateLink_ok (w : Backend) (x y : ℤ) {v : Browser} (h : SessionOk q v) :
    SessionOk q (velaActivateLink w x y v).2 := by
  have hnav : ∀ u, SessionOk q (nav w u true v).2 := fun u => navdepth_ok w true 2 u h
  have hstatus : ∀ m, SessionOk q (v.setStatus m) := fun m => h.congr (Same.setStatus v m)
  unfold velaActivateLink
  split
  · exact h
  · simp only
    split
    · unfold activateScript
      split
      · exact hstatus _
      · simp only
        split
        · exact hstatus _
        · split
          · exact hnav _
          · exact hstatus _
    · split
      · exact hnav _
      · exact h
      · exact hstatus _

theorem velaNavigateAction_ok (w : Backend) (action : VelaNavAction) {v : Browser}
    (h : SessionOk q v) : SessionOk q (velaNavigateAction w action v).2 := by
  have hscroll : ∀ y, SessionOk q (velaSetScroll y v) := velaSetScroll_ok h.history h.url
  cases action with
  | back => exact velaBack_ok w h
  | forward => exact velaForward_ok w h
  | reload => exact velaReload_ok w h
  | lineUp => exact hscroll _
  | lineDown => exact hscroll _
  | pageUp => exact hscroll _
  | pageDown => exact hscroll _
  | home => exact hscroll _
  | end_ => exact hscroll _

/-- Typing keeps the address a string, unless a zero byte is typed. -/
theorem velaInputChar_ok {c : UInt8} (hc : q → c ≠ 0) {v : Browser} (h : SessionOk q v) :
    SessionOk q (velaInputChar c v) := by
  unfold velaInputChar
  split
  · next hroom =>
    refine ⟨h.history.congr rfl rfl, fun hq => .of_urlString ⟨?_, ?_⟩, h.scroll⟩
    · have : v.url.length < 255 := hroom
      simp only [List.length_append, List.length_singleton]
      omega
    · intro hmem
      rcases List.mem_append.mp hmem with hmem | hmem
      · exact (h.url hq).urlString.2 hmem
      · exact hc hq (List.mem_singleton.mp hmem).symm
  · exact h

theorem velaBackspace_ok {v : Browser} (h : SessionOk q v) : SessionOk q (velaBackspace v) := by
  unfold velaBackspace
  split
  · refine ⟨h.history.congr rfl rfl, fun hq => ?_, h.scroll⟩
    obtain ⟨hlen, hzero⟩ := (h.url hq).urlString
    refine .of_urlString ⟨?_, ?_⟩
    · show v.url.dropLast.length ≤ 255
      rw [List.length_dropLast]
      omega
    · exact fun hmem => hzero (List.mem_of_mem_dropLast hmem)
  · exact h

/-- A new size lays the page out again if the width has changed, and clamps in any case. -/
theorem velaSetViewportSize_ok (width height : ℤ) {v : Browser} (h : SessionOk q v) :
    SessionOk q (velaSetViewportSize width height v) := by
  have hurl : ∀ {v' : Browser}, v'.url = v.url → q → UrlOk v' := by
    intro v' heq hq
    rw [UrlOk, heq]
    exact h.url hq
  unfold velaSetViewportSize
  simp only
  generalize (if width < 120 then 120 else width : ℤ) = width'
  generalize (if height < 80 then 80 else height : ℤ) = height'
  refine velaSetScroll_ok (h.history.congr ?_ ?_) (hurl ?_) _
  · split <;> rfl
  · split <;> rfl
  · split <;> rfl

theorem velaSetPlatform_ok (p : Option PlatformOps) {v : Browser} (h : SessionOk q v) :
    SessionOk q (velaSetPlatform p v).2 := by
  have hany : ∀ p', SessionOk q { v with platform := p' } :=
    fun _ => ⟨h.history.congr rfl rfl, h.url, h.scroll⟩
  unfold velaSetPlatform
  split
  · exact hany _
  · split <;> exact hany _

theorem startpage_cases (v : Browser) : ∃ doc raw, startpage v =
    { v with
      doc := doc
      raw := raw
      scroll := 0 } := ⟨_, _, rfl⟩

theorem velaInitEx_ok (width : ℤ) (p : Option PlatformOps) (v : Browser) :
    SessionOk q (velaInitEx width p v).2 := by
  have hempty : ∀ {v' : Browser}, v'.history = [] → v'.index = -1 → HistoryOk v' := by
    intro v' hh hi
    refine ⟨?_, ?_, ?_, ?_, ?_⟩
    · omega
    · rw [hh, hi]
      decide
    · simp [hh]
    · simp [hh, hi]
    · simp [hh]
  unfold velaInitEx
  simp only
  generalize hv : seturl _ [] = v₁
  have hfirst : SessionOk q v₁ := by
    subst hv
    exact ⟨hempty rfl rfl, fun _ => .of_urlString (cp_urlString []), .of_zero rfl⟩
  have hplatform := velaSetPlatform_ok p hfirst
  generalize velaSetPlatform p v₁ = r at hplatform ⊢
  obtain ⟨ok, v₂⟩ := r
  split
  · exact hplatform
  · obtain ⟨doc, raw, hstart⟩ := startpage_cases (v₂.setStatus (ascii "Ready / Aster Engine 0.3.2"))
    rw [hstart]
    exact ⟨hplatform.history.congr rfl rfl, hplatform.url, .of_zero rfl⟩

/-- **Every operation keeps the invariant.** -/
theorem step_ok (w : Backend) (op : Op) (v : Browser) (hop : q → op ≠ .inputChar 0)
    (h : SessionOk q v) : SessionOk q (step w op v).2 := by
  cases op with
  | loadUrl u => exact navdepth_ok w true 2 _ h
  | loadHtml html u => exact velaLoadHtml_ok html u h
  | go => exact navdepth_ok w true 2 _ h
  | back => exact velaBack_ok w h
  | forward => exact velaForward_ok w h
  | reload => exact velaReload_ok w h
  | activateLink x y => exact velaActivateLink_ok w x y h
  | inputChar c => exact velaInputChar_ok (fun hq hc => hop hq (by rw [hc])) h
  | backspace => exact velaBackspace_ok h
  | setViewportSize width height => exact velaSetViewportSize_ok width height h
  | setScroll y => exact velaSetScroll_ok h.history h.url y
  | scrollBy d => exact velaSetScroll_ok h.history h.url _
  | navigateAction action => exact velaNavigateAction_ok w action h
  | setFeatures f => exact ⟨h.history.congr rfl rfl, h.url, h.scroll⟩
  | setPlatform p => exact velaSetPlatform_ok p h

/-- **Every session keeps the invariant.** -/
theorem session_ok (w : Backend) (width : ℤ) (p : Option PlatformOps) (v : Browser) (ops : List Op)
    (hops : q → ∀ op ∈ ops, op ≠ .inputChar 0) :
    SessionOk q (session w (velaInitEx width p v).2 ops) :=
  session_induction (fun op v hop hv => step_ok w op v hop hv) ops
    (fun op hop hq => hops hq op hop) (velaInitEx_ok width p v)

end

/-- **The invariant of a session.**  After `vela_init_ex` and any calls, with any behaviour of
`http_get`, the history index is valid, every live entry and the address fit their buffers, the
recorded length is the length of the address, and the scroll position is on the page, as long as no
zero byte is typed. -/
theorem vela_session_invariant (w : Backend) (width : ℤ) (p : Option PlatformOps) (v : Browser)
    (ops : List Op) (hops : ∀ op ∈ ops, op ≠ .inputChar 0) :
    let v' := session w (velaInitEx width p v).2 ops
    (-1 ≤ v'.index ∧ v'.index < v'.history.length ∧ v'.history.length ≤ 12) ∧
    (v'.index = -1 ↔ v'.history.length = 0) ∧
    (∀ u ∈ v'.history, u.length ≤ 255 ∧ 0 ∉ u) ∧
    (v'.url.length ≤ 255 ∧ (cstr v'.url).length = v'.url.length) ∧
    (0 ≤ v'.scroll ∧ v'.scroll ≤ max 0 (asterDocumentHeight v'.doc - v'.viewportH + 24)) := by
  intro v'
  have h : SessionOk True v' := session_ok w width p v ops fun _ => hops
  exact ⟨⟨h.history.index_ge, h.history.index_lt, h.history.count_le⟩, h.history.index_neg,
    h.history.entries, h.url trivial, h.scroll⟩

/-- A platform with HTTP only. -/
def httpPlatform : PlatformOps := ⟨true, true, false, true⟩

/-- Page `http://a` has three lines, the other pages have one. -/
def threeLinePage : Backend where
  httpGet _ n := ⟨true, if n = ascii "http://a" then ascii "<p>x<br>y<br>z" else ascii "<p>q", ascii "200"⟩

/-- In a low window two pages are loaded, and the first one is shown again and scrolled to its end. -/
def scrolledBack : Browser :=
  session threeLinePage (velaInitEx 720 (some httpPlatform) .zero).2
    [.setViewportSize 720 90, .loadUrl (ascii "a"), .loadUrl (ascii "b"), .back, .scrollBy 48]

theorem vela_session_invariant_back :
    (scrolledBack.history = [ascii "http://a", ascii "http://b"] ∧ scrolledBack.index = 0 ∧
      scrolledBack.url = ascii "http://a" ∧ scrolledBack.scroll = 30) ∧
    (cstr scrolledBack.url).length = scrolledBack.url.length ∧
      scrolledBack.scroll ≤ max 0 (asterDocumentHeight scrolledBack.doc - scrolledBack.viewportH + 24) := by
  obtain ⟨-, -, -, hurl, hscroll⟩ := vela_session_invariant threeLinePage 720 (some httpPlatform) .zero
    [.setViewportSize 720 90, .loadUrl (ascii "a"), .loadUrl (ascii "b"), .back, .scrollBy 48] (by decide)
  exact ⟨by decide +kernel, hurl.2, hscroll.2⟩

/-- A backend that answers nothing. -/
def offline : Backend := ⟨fun _ _ => ⟨false, [], []⟩⟩

/-- A zero byte is typed: the recorded length is 1, but the address is the empty string. -/
theorem vela_zero_byte_breaks_length :
    ¬ ((session offline (velaInitEx 720 none .zero).2 [.inputChar 0]).url.length ≤ 255 ∧
      (cstr (session offline (velaInitEx 720 none .zero).2 [.inputChar 0]).url).length
        = (session offline (velaInitEx 720 none .zero).2 [.inputChar 0]).url.length) := by
  have hurl : (session offline (velaInitEx 720 none .zero).2 [.inputChar 0]).url = [0] := rfl
  rw [hurl]
  decide

end Orion.Vela
