import Mathlib.Data.List.Infix
import Orion.Aster.Boundary
import Orion.Vela.History

/-!
# The lite profile

Without scripts the browser uses the raw page only to parse it, and the parser reads a script as one
token.  So two pages that differ in the body of a script are shown alike.
-/

namespace Orion.Vela

open Orion.Aster (ci cstr asterParseHtml parseLoop_eq_applyAll tokens BeforeScript Lacks scriptedPage
  tokens_scriptedPage asterLinkAt)

/-! ## Parsing -/

/-- The parser depends on the tokens only. -/
theorem asterParseHtml_congr {h h' : List UInt8} (heq : tokens (cstr h) = tokens (cstr h'))
    (d : Aster.Document) : asterParseHtml d h = asterParseHtml d h' := by
  have hloop : ∀ h, Aster.parseLoop (cstr h).length (cstr h) ⟨Aster.asterDocumentInit d, [0]⟩
      = Aster.applyAll ⟨Aster.asterDocumentInit d, [0]⟩ (tokens (cstr h)) :=
    fun h => parseLoop_eq_applyAll _ _ _
  unfold asterParseHtml
  rw [hloop h, hloop h', heq]

/-- Raw pages that are parsed alike. -/
def ParsedAlike (r r' : List UInt8) : Prop := ∀ d, asterParseHtml d r = asterParseHtml d r'

/-! ## Loading -/

/-- The browser with another raw page. -/
def Browser.withRaw (v : Browser) (raw : List UInt8) : Browser := { v with raw := raw }

/-- Two outcomes that differ in the raw page only. -/
def Alike {α : Type} (r r' : α × Browser) : Prop :=
  ∃ (a : α) (v : Browser) (raw raw' : List UInt8), r = (a, v.withRaw raw) ∧ r' = (a, v.withRaw raw') ∧ ParsedAlike raw raw'

theorem Alike.refl {α : Type} (r : α × Browser) : Alike r r :=
  ⟨r.1, r.2, r.2.raw, r.2.raw, rfl, rfl, fun _ => rfl⟩

theorem hist_withRaw (v : Browser) (raw u : List UInt8) :
    hist (v.withRaw raw) u = (hist v u).withRaw raw := by
  unfold hist Browser.entry Browser.withRaw
  simp only
  split_ifs <;> rfl

/-- Showing a page without scripts: nothing is redirected, and the raw page only matters for the
parser. -/
theorem commit_alike (push : Bool) (n : List UInt8) {v : Browser} (hjs : v.javascript = false)
    {raw raw' : List UInt8} (h : ParsedAlike raw raw') :
    ∃ v' : Browser, commit push n (v.withRaw raw) = ([], v'.withRaw raw) ∧
      commit push n (v.withRaw raw') = ([], v'.withRaw raw') := by
  have hrender : ∀ raw, render (seturl (v.withRaw raw) n)
      = ([], (parse (seturl (v.withRaw raw) n))) := by
    intro raw
    have hjs' : (seturl (v.withRaw raw) n).javascript = false := hjs
    unfold render
    rw [hjs']
    rfl
  have hparse : parse (seturl (v.withRaw raw') n) = (parse (seturl (v.withRaw raw) n)).withRaw raw' := by
    unfold parse
    rw [show (seturl (v.withRaw raw') n).raw = raw' from rfl,
      show (seturl (v.withRaw raw) n).raw = raw from rfl, h]
    rfl
  have hself : parse (seturl (v.withRaw raw) n)
      = (parse (seturl (v.withRaw raw) n)).withRaw raw := rfl
  have hcommit : ∀ r, commit push n (v.withRaw r)
      = ([], if push then hist (parse (seturl (v.withRaw r) n)) n
        else parse (seturl (v.withRaw r) n)) := by
    intro r
    unfold commit
    rw [hrender]
  rw [hcommit, hcommit, hparse]
  generalize parse (seturl (v.withRaw raw) n) = v₁ at hself ⊢
  cases push with
  | true =>
    refine ⟨hist v₁ n, ?_, ?_⟩
    · rw [if_pos rfl, ← hist_withRaw, ← hself]
    · rw [if_pos rfl, hist_withRaw]
  | false => exact ⟨v₁, by rw [if_neg (by simp), ← hself], by rw [if_neg (by simp)]⟩

theorem finish_withRaw (v : Browser) (raw : List UInt8) :
    finish (v.withRaw raw) = (finish v).withRaw raw := by
  unfold finish Browser.withRaw
  simp only
  split <;> rfl

/-- The two backends deliver pages that are parsed alike, with the same outcome and status. -/
def DeliverAlike (w w' : Backend) (calls : ℕ) : Prop :=
  ∀ n, (w.httpGet calls n).ok = (w'.httpGet calls n).ok ∧
    (w.httpGet calls n).status = (w'.httpGet calls n).status ∧
    ParsedAlike (cp velaRawCap (w.httpGet calls n).raw) (cp velaRawCap (w'.httpGet calls n).raw)

section

variable {w w' : Backend} {v : Browser} (hw : DeliverAlike w w' v.calls)

include hw

theorem fetch_alike (u : List UInt8) : Alike (fetch w u v) (fetch w' u v) := by
  unfold fetch
  split
  · exact Alike.refl _
  · split
    · exact Alike.refl _
    · cases canon v.tls u with
      | error m => exact Alike.refl _
      | ok n =>
        obtain ⟨hok, hstatus, hraw⟩ := hw n
        simp only [hok, hstatus]
        exact ⟨_, { v with
          status := cp velaStatusCap (w'.httpGet v.calls n).status
          calls := v.calls + 1 }, _, _, rfl, rfl, hraw⟩

variable (hjs : v.javascript = false)

include hjs

/-- **A navigation without scripts** shows pages alike that are parsed alike. -/
theorem nav_alike (u : List UInt8) (push : Bool) : Alike (nav w u push v) (nav w' u push v) := by
  obtain ⟨a, v₁, raw, raw', hr, hr', hraw⟩ := fetch_alike hw u
  have hsame := fetch_same w u v
  rw [hr] at hsame
  unfold nav
  rw [navdepth, navdepth, hr, hr']
  cases a with
  | none => exact ⟨false, v₁, raw, raw', rfl, rfl, hraw⟩
  | some n =>
    have hjs₁ : v₁.javascript = false := by
      rw [Browser.javascript, show v₁.features = v.features from hsame.features]
      exact hjs
    obtain ⟨v₂, hc, hc'⟩ := commit_alike push n hjs₁ hraw
    have hno : ∀ x : Browser, redirect n [] x = (none, x) := fun _ => rfl
    simp only [hc, hc', hno, finish_withRaw]
    exact ⟨true, finish v₂, raw, raw', rfl, rfl, hraw⟩

theorem moveTo_alike (can : Bool) (x : ℤ) : Alike (moveTo w can x v) (moveTo w' can x v) := by
  unfold moveTo
  split
  · exact Alike.refl _
  · obtain ⟨a, v₁, raw, raw', hr, hr', hraw⟩ := nav_alike hw hjs (cp velaUrlCap (v.entry x)) false
    rw [hr, hr']
    cases a with
    | false => exact ⟨false, v₁, raw, raw', rfl, rfl, hraw⟩
    | true => exact ⟨true, { v₁ with index := x }, raw, raw', rfl, rfl, hraw⟩

theorem velaReload_alike : Alike (velaReload w v) (velaReload w' v) := by
  unfold velaReload
  split
  · exact Alike.refl _
  · exact nav_alike hw hjs _ _

theorem velaActivateLink_alike (x y : ℤ) :
    Alike (velaActivateLink w x y v) (velaActivateLink w' x y v) := by
  unfold velaActivateLink
  split
  · exact Alike.refl _
  · simp only
    split
    · unfold activateScript
      rw [if_pos hjs, if_pos hjs]
      exact Alike.refl _
    · split
      · exact nav_alike hw hjs _ _
      · exact Alike.refl _
      · exact Alike.refl _

/-- **Every operation** shows pages alike that are parsed alike. -/
theorem step_alike (op : Op) : Alike (step w op v) (step w' op v) := by
  cases op with
  | loadUrl u => exact nav_alike hw hjs _ _
  | go => exact nav_alike hw hjs _ _
  | back => exact moveTo_alike hw hjs _ _
  | forward => exact moveTo_alike hw hjs _ _
  | reload => exact velaReload_alike hw hjs
  | activateLink x y => exact velaActivateLink_alike hw hjs x y
  | navigateAction action =>
    cases action with
    | back => exact moveTo_alike hw hjs _ _
    | forward => exact moveTo_alike hw hjs _ _
    | reload => exact velaReload_alike hw hjs
    | lineUp => exact Alike.refl _
    | lineDown => exact Alike.refl _
    | pageUp => exact Alike.refl _
    | pageDown => exact Alike.refl _
    | home => exact Alike.refl _
    | end_ => exact Alike.refl _
  | loadHtml _ _ => exact Alike.refl _
  | inputChar _ => exact Alike.refl _
  | backspace => exact Alike.refl _
  | setViewportSize _ _ => exact Alike.refl _
  | setScroll _ => exact Alike.refl _
  | scrollBy _ => exact Alike.refl _
  | setFeatures _ => exact Alike.refl _
  | setPlatform _ => exact Alike.refl _

end

/-! ## Pages with a script -/

/-- Pages that fit and differ in the body of a script are parsed alike. -/
theorem scriptedPage_alike {pre b b' post : List UInt8} (hpre : BeforeScript pre)
    (hb : Lacks (ascii "</script") b) (hb' : Lacks (ascii "</script") b')
    (hzero : 0 ∉ scriptedPage pre b post) (hzero' : 0 ∉ scriptedPage pre b' post)
    (hfit : (scriptedPage pre b post).length < velaRawCap)
    (hfit' : (scriptedPage pre b' post).length < velaRawCap) :
    ParsedAlike (cp velaRawCap (scriptedPage pre b post))
      (cp velaRawCap (scriptedPage pre b' post)) := by
  have hcp : ∀ {page : List UInt8}, 0 ∉ page → page.length < velaRawCap →
      cp velaRawCap page = page := by
    intro page hz hf
    rw [cp, cstr_eq_self hz]
    exact List.take_of_length_le (by omega)
  intro d
  rw [hcp hzero hfit, hcp hzero' hfit']
  refine asterParseHtml_congr ?_ d
  rw [cstr_eq_self hzero, cstr_eq_self hzero']
  exact tokens_scriptedPage hpre hb hb' post

/-- **The lite profile is blind to scripts.**  From the same state, an operation that loads a page and
one that loads the page with another script, with the same status, end with the same document,
address, status line, scroll position and history. -/
theorem vela_lite_blind {pre post b b' : List UInt8} (hpre : BeforeScript pre)
    (hb : Lacks (ascii "</script") b) (hb' : Lacks (ascii "</script") b')
    (hzero : 0 ∉ scriptedPage pre b post) (hzero' : 0 ∉ scriptedPage pre b' post)
    (hfit : (scriptedPage pre b post).length < velaRawCap)
    (hfit' : (scriptedPage pre b' post).length < velaRawCap)
    (v : Browser) (hlite : v.features = velaProfileLite) (w w' : Backend)
    (hw : ∀ n, ∃ ok status, w.httpGet v.calls n = ⟨ok, scriptedPage pre b post, status⟩ ∧
      w'.httpGet v.calls n = ⟨ok, scriptedPage pre b' post, status⟩) (op : Op) :
    (step w op v).1 = (step w' op v).1 ∧
    (step w op v).2.doc = (step w' op v).2.doc ∧
    (step w op v).2.url = (step w' op v).2.url ∧
    (step w op v).2.status = (step w' op v).2.status ∧
    (step w op v).2.scroll = (step w' op v).2.scroll ∧
    (step w op v).2.history = (step w' op v).2.history ∧
    (step w op v).2.index = (step w' op v).2.index := by
  have hdeliver : DeliverAlike w w' v.calls := by
    intro n
    obtain ⟨ok, status, h, h'⟩ := hw n
    rw [h, h']
    exact ⟨rfl, rfl, scriptedPage_alike hpre hb hb' hzero hzero' hfit hfit'⟩
  have hjs : v.javascript = false := by
    rw [Browser.javascript, hlite]
    rfl
  obtain ⟨a, x, raw, raw', h, h', -⟩ := step_alike hdeliver hjs op
  rw [h, h']
  exact ⟨rfl, rfl, rfl, rfl, rfl, rfl, rfl⟩

/-- A backend that delivers one page. -/
def onePage (page : List UInt8) : Backend := ⟨fun _ _ => ⟨true, page, ascii "200"⟩⟩

/-- A script that sets the title, and one that has tags in it. -/
theorem vela_lite_blind_title :
    (step (onePage (scriptedPage (ascii "<p>x") (ascii "document.title='y'") (ascii "</p>")))
        (.loadUrl (ascii "a/"))
        { Browser.zero with features := velaProfileLite, platform := some httpPlatform }).2.doc
      = (step (onePage (scriptedPage (ascii "<p>x") (ascii "<a><b>") (ascii "</p>")))
        (.loadUrl (ascii "a/"))
        { Browser.zero with features := velaProfileLite, platform := some httpPlatform }).2.doc := by
  have hpre : BeforeScript (ascii "<p>x") :=
    ⟨[.element .p [] false, .text (ascii "x")], .cons (by decide) (.cons (by decide) .nil)⟩
  have hlacks : ∀ b : List UInt8, (b.tails.all fun s => ci s (ascii "</script") = false) = true →
      Lacks (ascii "</script") b := by
    intro b hb s hs
    exact of_decide_eq_true (List.all_eq_true.mp hb s ((List.mem_tails s b).mpr hs))
  exact (vela_lite_blind hpre (hlacks _ (by decide +kernel)) (hlacks _ (by decide +kernel))
    (by decide +kernel) (by decide +kernel) (by decide +kernel) (by decide +kernel)
    { Browser.zero with features := velaProfileLite, platform := some httpPlatform } rfl _ _
    (fun _ => ⟨true, ascii "200", rfl, rfl⟩) (.loadUrl (ascii "a/"))).2.1

end Orion.Vela
