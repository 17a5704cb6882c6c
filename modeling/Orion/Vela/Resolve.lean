import Orion.Http.Get
import Orion.Http.Resolve
import Orion.Vela.Url

/-!
# Two resolvers

A relative reference is resolved by `resolve` when it is a link and by `resolve_redirect` when it is
a redirect.  `resolve` looks for slashes in the whole address; `resolve_redirect` takes it apart
first, so that a query or fragment is neither part of the host nor of the directory.  Here is when
both lead to the same place (`resolvers_agree_iff`).
-/

namespace Orion.Vela

open Orion.Aster (ci cstr)
open Orion.Http (Address Url parseUrl resolveFull resolveRedirect isHostEnd schemeText defaultPort
  PortText portSuffix portSuffix_ok pathOf pathOf_of_head dirOf plainChar sappend_take pathCap
  hostCap locationCap parseUrl_address)

/-! ## References -/

/-- A reference that starts with a single slash. -/
def RootRelative (ref : List UInt8) : Prop := ref.head? = some 47 ∧ ref[1]? ≠ some 47

/-- A relative path with no colon in it. -/
def PlainRelative (ref : List UInt8) : Prop :=
  ref ≠ [] ∧ 58 ∉ ref ∧ ∀ c ∈ ref.head?, c ≠ 47 ∧ c ≠ 63 ∧ c ≠ 35

/-! ## The whole text -/

/-- What `origin` copies from an address, before it is cut to the buffer. -/
def originWhole (b : List UInt8) (dir : Bool) : List UInt8 :=
  let s := (((findci (ascii "://") b).getD []).drop 3).dropWhile (· ≠ 47)
  if s = [] then if dir then b ++ [47] else b
  else if dir then b.rdropWhile (· ≠ 47) else b.take (b.length - s.length)

/-- What `resolve` writes for a relative reference, before it is cut to the buffer. -/
def resolveWhole (b r : List UInt8) : List UInt8 := originWhole b (r.head? ≠ some 47) ++ r

theorem cat_take {s : List UInt8} (h : 0 ∉ s) (cap : ℕ) (whole : List UInt8) :
    cat cap (whole.take (cap - 1)) s = (whole ++ s).take (cap - 1) := by
  rw [cat, cstr_eq_self h]
  exact sappend_take cap whole s

theorem findci_scheme (secure : Bool) (s : List UInt8) :
    findci (ascii "://") (schemeText secure ++ s) = some (ascii "://" ++ s) := by
  cases secure <;> rfl

theorem origin_eq_take {b : List UInt8} {secure : Bool} {s : List UInt8} (hb : b = schemeText secure ++ s)
    (h0 : 0 ∉ b) (dir : Bool) : origin b dir = some ((originWhole b dir).take (velaUrlCap - 1)) := by
  have hci : ci b (ascii "http") = true := by
    rw [hb]
    cases secure <;> rfl
  have hfind : findci (ascii "://") b = some (ascii "://" ++ s) := by rw [hb, findci_scheme]
  unfold origin originWhole
  rw [hci, hfind]
  simp only [Bool.true_eq_false, if_false, Option.getD_some]
  cases hs : ((ascii "://" ++ s).drop 3).dropWhile (· ≠ 47) with
  | nil =>
    rw [if_pos rfl]
    cases dir
    · simp [cp, cstr_eq_self h0]
    · simp only [if_true, cp, cstr_eq_self h0]
      rw [cat_take (by decide)]
      rfl
  | cons c t => simp only [reduceCtorEq, if_false]

theorem colon_of_startsCi {r p : List UInt8} (h : startsCi r p = true) (hp : 58 ∈ p) : 58 ∈ r := by
  have hmem := (List.isPrefixOf_iff_prefix.mp h).subset
    (List.mem_map_of_mem (f := lowerAscii) hp)
  obtain ⟨c, hc, hlow⟩ := List.mem_map.mp hmem
  rwa [eq_of_lowerAscii (d := 58) (by decide) hlow] at hc

theorem relative_ne_nil {r : List UInt8} (hr : RootRelative r ∨ PlainRelative r) : r ≠ [] := by
  rcases hr with hr | hr
  · rintro rfl
    simp [RootRelative] at hr
  · exact hr.1

/-- No reference of the two kinds starts with a scheme. -/
theorem not_absolute {r p : List UInt8} (hr : RootRelative r ∨ PlainRelative r) (hp : 58 ∈ p)
    (hhead : p.head? ≠ some 47) : startsCi r p = false := by
  rw [Bool.eq_false_iff]
  intro hci
  rcases hr with hr | hr
  · obtain ⟨t, rfl⟩ := List.head?_eq_some_iff.mp hr.1
    obtain ⟨d, p, rfl⟩ := List.exists_cons_of_ne_nil (List.ne_nil_of_mem hp)
    have hmap := List.isPrefixOf_iff_prefix.mp hci
    have hlow : lowerAscii d = 47 := (List.cons_prefix_cons.mp hmap).1
    exact hhead (congrArg some (eq_of_lowerAscii (by decide) hlow))
  · exact hr.2.1 (colon_of_startsCi hci hp)

/-- **The result of `resolve` is the beginning of the whole text.** -/
theorem resolve_eq_take {tls : Bool} {b r : List UInt8} {secure : Bool} {s : List UInt8}
    (hb : b = schemeText secure ++ s) (hb0 : 0 ∉ b) (hr0 : 0 ∉ r)
    (hr : RootRelative r ∨ PlainRelative r) :
    resolve tls b r = .ok ((resolveWhole b r).take (velaUrlCap - 1)) := by
  have hno : ∀ p : List UInt8, 58 ∈ p → p.head? ≠ some 47 → ci r p = false :=
    fun p hp hhead => not_absolute hr hp hhead
  have hhash : r.head? ≠ some 35 := by
    rcases hr with hr | hr
    · rw [hr.1]
      decide
    · exact fun h => (hr.2.2 35 h).2.2 rfl
  have hslashes : ¬ (r.head? = some 47 ∧ r[1]? = some 47) := by
    rintro ⟨h1, h2⟩
    rcases hr with hr | hr
    · exact hr.2 h2
    · exact (hr.2.2 47 h1).1 rfl
  unfold resolve
  rw [if_neg (relative_ne_nil hr),
    if_neg (by rw [hno _ (by decide) (by decide), hno _ (by decide) (by decide)]; simp),
    if_neg (by rw [hno _ (by decide) (by decide)]; simp), if_neg hhash, if_neg hslashes]
  simp only [origin_eq_take hb hb0, cat_take hr0]
  rfl

/-! ## On the parts of an address -/

/-- The directory as `origin` finds it, behind host and port. -/
def dirText (s : List UInt8) : List UInt8 := if 47 ∈ s then s.rdropWhile (· ≠ 47) else s ++ [47]

theorem authority_noSlash (a : Address) : ∀ c ∈ a.host ++ a.portText, c ≠ 47 := by
  intro c hc
  rcases List.mem_append.mp hc with hc | hc
  · rintro rfl
    exact absurd (a.host_plain 47 hc) (by decide)
  · rcases a.port_ok with ⟨hnil, -⟩ | ⟨digits, hdigits, hnum, -⟩
    · simp [hnil] at hc
    · rw [hdigits] at hc
      rintro rfl
      rcases List.mem_cons.mp hc with h | h
      · exact absurd h (by decide)
      · exact absurd (Orion.Http.isDigit_of_numeral hnum 47 h) (by decide)

theorem rdropWhile_slash_ne_nil {s : List UInt8} (h : 47 ∈ s) : s.rdropWhile (· ≠ 47) ≠ [] := by
  rw [ne_eq, List.rdropWhile_eq_nil_iff]
  intro hall
  exact absurd (hall 47 h) (by simp)

theorem originWhole_address (a : Address) (dir : Bool) :
    originWhole a.text dir
      = a.authority ++ if dir then dirText a.rest else a.rest.takeWhile (· ≠ 47) := by
  have hbehind : (((findci (ascii "://") a.text).getD []).drop 3)
      = (a.host ++ a.portText) ++ a.rest := by
    have htext : a.text = schemeText a.secure ++ ((a.host ++ a.portText) ++ a.rest) := by
      simp only [Address.text, Address.authority, List.append_assoc]
    rw [htext, findci_scheme]
    rfl
  have hscan : (((findci (ascii "://") a.text).getD []).drop 3).dropWhile (· ≠ 47)
      = a.rest.dropWhile (· ≠ 47) := by
    rw [hbehind, List.dropWhile_append_of_pos]
    intro c hc
    simpa using authority_noSlash a c hc
  unfold originWhole
  rw [hscan]
  by_cases hslash : 47 ∈ a.rest
  · have hne : a.rest.dropWhile (· ≠ 47) ≠ [] := by
      rw [ne_eq, List.dropWhile_eq_nil_iff]
      intro hall
      exact absurd (hall 47 hslash) (by simp)
    simp only [if_neg hne, dirText, if_pos hslash]
    cases dir
    · have hsplit := @List.takeWhile_append_dropWhile _ (fun c : UInt8 => decide (c ≠ 47)) a.rest
      have htext : a.text = (a.authority ++ a.rest.takeWhile (· ≠ 47)) ++ a.rest.dropWhile (· ≠ 47) := by
        rw [List.append_assoc, hsplit]
        rfl
      simp only [Bool.false_eq_true, if_false]
      conv_lhs => rw [htext]
      rw [List.length_append, Nat.add_sub_cancel, List.take_left]
    · exact rdropWhile_append_of_ne (rdropWhile_slash_ne_nil hslash) _
  · have hall : ∀ c ∈ a.rest, decide (c ≠ 47) = true := by
      intro c hc
      simp only [ne_eq, decide_not, Bool.not_eq_true', decide_eq_false_iff_not]
      rintro rfl
      exact hslash hc
    have hnil : a.rest.dropWhile (· ≠ 47) = [] := List.dropWhile_eq_nil_iff.mpr hall
    simp only [if_pos hnil, dirText, if_neg hslash, List.takeWhile_eq_self_iff.mpr hall]
    cases dir
    · rfl
    · exact List.append_assoc _ _ _

theorem dirText_head {s : List UInt8} (hs : s ≠ []) : (dirText s).head? = s.head? := by
  unfold dirText
  split
  · next h =>
    obtain ⟨t, ht⟩ := List.rdropWhile_prefix (p := fun c : UInt8 => decide (c ≠ 47)) (l := s)
    have hne := rdropWhile_slash_ne_nil h
    conv_rhs => rw [← ht]
    rw [List.head?_append_of_ne_nil _ hne]
  · rw [List.head?_append_of_ne_nil _ hs]

theorem dirText_ne_nil (s : List UInt8) : dirText s ≠ [] := by
  unfold dirText
  split
  · next h => exact rdropWhile_slash_ne_nil h
  · simp

/-- What `resolve` puts behind host and port. -/
def linkRest (rest ref : List UInt8) : List UInt8 :=
  (if ref.head? = some 47 then rest.takeWhile (· ≠ 47) else dirText rest) ++ ref

theorem linkRest_head (rest ref : List UInt8) :
    (linkRest rest ref).head? = rest.head? ∨ (linkRest rest ref).head? = some 47 := by
  unfold linkRest
  split
  · next hroot =>
    cases rest with
    | nil => exact .inr (by simpa using hroot)
    | cons c rest =>
      by_cases hc : c = 47
      · exact .inr (by simpa [hc] using hroot)
      · exact .inl (by simp [hc])
  · rw [List.head?_append_of_ne_nil _ (dirText_ne_nil rest)]
    by_cases hrest : rest = []
    · rw [hrest]
      exact .inr rfl
    · exact .inl (dirText_head hrest)

/-- **How `parse_url` reads the result of `resolve`.** -/
theorem parseUrl_resolveWhole (a : Address) (ref : List UInt8) :
    parseUrl (resolveWhole a.text ref) =
      if (pathOf (linkRest a.rest ref)).length < pathCap then
        some ⟨a.secure, a.host, a.port, pathOf (linkRest a.rest ref)⟩
      else none := by
  have htext : resolveWhole a.text ref = (a.withRest _ (linkRest_head a.rest ref)).text := by
    show originWhole a.text _ ++ ref = a.authority ++ linkRest a.rest ref
    rw [originWhole_address, List.append_assoc]
    congr 1
    unfold linkRest
    by_cases hroot : ref.head? = some 47 <;> simp [hroot]
  rw [htext, Address.parseUrl_text]
  rfl

/-- What `resolve_redirect` puts behind host and port. -/
def redirectRest (rest ref : List UInt8) : List UInt8 :=
  (if ref.head? = some 47 then [] else dirOf (pathOf rest)) ++ ref

theorem resolveFull_address (a : Address) (hpath : (pathOf a.rest).length < pathCap)
    {ref : List UInt8} (hr : RootRelative ref ∨ PlainRelative ref) :
    resolveFull a.text ref = some (schemeText a.secure ++ a.host ++ portSuffix a.secure a.port ++
      redirectRest a.rest ref) := by
  have hne : ref ≠ [] := relative_ne_nil hr
  have hparse : parseUrl a.text = some a.url := by rw [Address.parseUrl_text, if_pos hpath]
  unfold resolveFull
  rw [if_neg hne, hparse]
  simp only
  rw [if_neg (by rw [not_absolute hr (by decide) (by decide)]; simp),
    if_neg (by rw [not_absolute hr (by decide) (by decide)]; simp)]
  rcases hr with ⟨hhead, hnext⟩ | ⟨-, hcolon, hhead⟩
  · obtain ⟨t, rfl⟩ := List.head?_eq_some_iff.mp hhead
    have hsingle : (ascii "//").isPrefixOf (47 :: t) = false := by
      rw [Bool.eq_false_iff]
      intro h
      obtain ⟨x, hx⟩ := List.isPrefixOf_iff_prefix.mp h
      rw [← hx] at hnext
      exact hnext rfl
    rw [hsingle, if_neg (by simp), if_neg (by simp)]
    rw [if_pos (by rfl)]
    simp [redirectRest, Orion.Http.originText, Address.url]
  · have hslash : ref.head? ≠ some 47 := fun h => (hhead 47 h).1 rfl
    have hone : ∀ x, (ascii "/" ++ x).isPrefixOf ref = false := by
      intro x
      rw [Bool.eq_false_iff]
      intro h
      obtain ⟨y, hy⟩ := List.isPrefixOf_iff_prefix.mp h
      rw [← hy] at hslash
      exact hslash rfl
    rw [show (ascii "//").isPrefixOf ref = false from hone (ascii "/"), if_neg (by simp),
      if_neg (fun h => hcolon ((List.takeWhile_sublist _).subset h)),
      show (ascii "/").isPrefixOf ref = false from hone [], if_neg (by simp)]
    simp [redirectRest, hslash, Orion.Http.originText, Address.url]

/-! ## Agreement -/

/-- Where a link and a redirect go to the same place.  Root-relative references need a base with its
path, or nothing, directly behind host and port.  Relative paths need a base whose last slash is not
in the query or fragment; the path may be without a slash in front only behind a port that is not the
default. -/
def SameTarget (url : Url) (rest ref : List UInt8) : Prop :=
  if ref.head? = some 47 then (rest = [] ∨ rest.head? = some 47) ∧ ref.length < pathCap
  else
    (rest = [] ∨ (rest.head? = some 47 ∨ url.port ≠ defaultPort url.secure) ∧
      47 ∈ rest.takeWhile plainChar) ∧
    47 ∉ rest.dropWhile plainChar ∧ (dirOf url.path ++ ref).length < pathCap

/-- Behind a host and no port, a text that does not start a path is read as part of the host or as a
port, so that the path gets shorter. -/
theorem path_length_of_glued (a : Address) {y : List UInt8} (hne : y ≠ [])
    (hy : ∀ c ∈ y.head?, c ≠ 47 ∧ c ≠ 63 ∧ c ≠ 35) {u : Url}
    (hu : parseUrl (schemeText a.secure ++ a.host ++ y) = some u) (hsecure : u.secure = a.secure)
    (hhost : u.host = a.host) : u.path.length < y.length := by
  obtain ⟨b, hb, rfl, -⟩ := parseUrl_address hu
  have hb' : b.secure = a.secure := hsecure
  have hh' : b.host = a.host := hhost
  have hsplit : b.portText ++ b.rest = y := by
    have htext : schemeText a.secure ++ a.host ++ (b.portText ++ b.rest)
        = schemeText a.secure ++ a.host ++ y := by
      rw [← hb, ← hb', ← hh', ← List.append_assoc]
      rfl
    exact List.append_cancel_left htext
  rcases b.port_ok with ⟨hnil, -⟩ | ⟨digits, hdigits, hnum, -⟩
  · exfalso
    rw [hnil, List.nil_append] at hsplit
    obtain ⟨c, t, rfl⟩ := List.exists_cons_of_ne_nil hne
    have hend := b.rest_end hnil c (by rw [hsplit]; rfl)
    have hstart := hy c rfl
    tauto
  · have hlen : digits.length ≠ 0 := fun hz => hnum.1 (List.length_eq_zero_iff.mp hz)
    have hle := Orion.Http.length_pathOf_le b.rest
    rw [← hsplit, hdigits]
    simp only [Address.url, List.length_append, List.length_cons]
    omega

/-- The directories of both resolvers, when the path begins directly behind host and port. -/
theorem dirText_eq_dirOf_iff {rest : List UInt8} (hlen : rest.length < pathCap) {c : UInt8}
    (hhead : rest.head? = some c) (hc : c ≠ 63 ∧ c ≠ 35) :
    dirText rest = dirOf rest ↔
      47 ∈ rest.takeWhile plainChar ∧ 47 ∉ rest.dropWhile plainChar := by
  have hsplit := @List.takeWhile_append_dropWhile _ plainChar rest
  by_cases hplain : 47 ∈ rest.takeWhile plainChar
  · have hslash : 47 ∈ rest := (List.takeWhile_sublist _).subset hplain
    rw [Orion.Http.dirOf_of_slash hlen hplain, dirText, if_pos hslash]
    by_cases hquery : 47 ∈ rest.dropWhile plainChar
    · have hne := rdropWhile_slash_ne_nil hquery
      have hlong : rest.rdropWhile (· ≠ 47)
          = rest.takeWhile plainChar ++ (rest.dropWhile plainChar).rdropWhile (· ≠ 47) := by
        conv_lhs => rw [← hsplit]
        exact rdropWhile_append_of_ne hne _
      have hshort := (List.rdropWhile_prefix (p := fun c : UInt8 => decide (c ≠ 47))
        (l := rest.takeWhile plainChar)).length_le
      have hpos := List.length_pos_of_ne_nil hne
      refine ⟨fun h => ?_, fun h => absurd hquery h.2⟩
      have := congrArg List.length (hlong.symm.trans h)
      rw [List.length_append] at this
      omega
    · have hsame : rest.rdropWhile (· ≠ 47) = (rest.takeWhile plainChar).rdropWhile (· ≠ 47) := by
        conv_lhs => rw [← hsplit]
        refine rdropWhile_append_of_all fun d hd => ?_
        simp only [ne_eq, decide_not, Bool.not_eq_true', decide_eq_false_iff_not]
        rintro rfl
        exact hquery hd
      exact ⟨fun _ => ⟨hplain, hquery⟩, fun _ => hsame⟩
  · -- without a slash in the path, one directory is a single character and the other ends in a slash
    obtain ⟨t, rfl⟩ := List.head?_eq_some_iff.mp hhead
    have hcplain : plainChar c = true := by simp [plainChar, hc]
    have hc47 : c ≠ 47 := by
      rintro rfl
      exact hplain (by rw [List.takeWhile_cons_of_pos hcplain]; exact List.mem_cons_self)
    refine ⟨fun h => ?_, fun h => absurd h.1 hplain⟩
    rw [Orion.Http.dirOf_of_no_slash hplain] at h
    have hlast : 47 ∈ dirText (c :: t) := by
      unfold dirText
      split
      · next hmem =>
        have hne := rdropWhile_slash_ne_nil hmem
        have hend : ((c :: t).rdropWhile (· ≠ 47)).getLast hne = 47 := by
          simpa using List.rdropWhile_last_not (fun c : UInt8 => decide (c ≠ 47)) (c :: t) hne
        have hmem' := List.getLast_mem hne
        rwa [hend] at hmem'
      · simp
    rw [h] at hlast
    simp [Ne.symm hc47] at hlast

theorem length_dirOf_le {rest : List UInt8} (hlen : rest.length < pathCap) :
    (dirOf rest).length ≤ (dirText rest).length := by
  by_cases hplain : 47 ∈ rest.takeWhile plainChar
  · have hslash : 47 ∈ rest := (List.takeWhile_sublist _).subset hplain
    rw [Orion.Http.dirOf_of_slash hlen hplain, dirText, if_pos hslash]
    conv_rhs => rw [← @List.takeWhile_append_dropWhile _ plainChar rest]
    by_cases hquery : 47 ∈ rest.dropWhile plainChar
    · rw [rdropWhile_append_of_ne (rdropWhile_slash_ne_nil hquery), List.length_append]
      have := (List.rdropWhile_prefix (p := fun c : UInt8 => decide (c ≠ 47))
        (l := rest.takeWhile plainChar)).length_le
      omega
    · rw [rdropWhile_append_of_all]
      intro d hd
      simp only [ne_eq, decide_not, Bool.not_eq_true', decide_eq_false_iff_not]
      rintro rfl
      exact hquery hd
  · rw [Orion.Http.dirOf_of_no_slash hplain]
    have := List.length_take_le 1 rest
    have := List.length_pos_of_ne_nil (dirText_ne_nil rest)
    omega

/-- **How `parse_url` reads the result of `resolve_redirect`**, if it starts a path or stands behind a
port. -/
theorem parseUrl_redirect (a : Address) {y : List UInt8}
    (hy : y.head? = some 47 ∨ a.port ≠ defaultPort a.secure ∧ ∀ c ∈ y.head?, isDigit c = false) :
    parseUrl (schemeText a.secure ++ a.host ++ portSuffix a.secure a.port ++ y) =
      if (pathOf y).length < pathCap then some ⟨a.secure, a.host, a.port, pathOf y⟩ else none :=
  (a.withPort y hy).parseUrl_text

/-- Both results are accepted with the same path. -/
theorem both_some_iff {v y : List UInt8} {u : List UInt8 → Url} (hu : ∀ p, (u p).path = p) :
    (∃ w, (if v.length < pathCap then some (u v) else none) = some w ∧
        (if y.length < pathCap then some (u y) else none) = some w) ↔ v = y ∧ y.length < pathCap := by
  constructor
  · rintro ⟨w, hv, hy⟩
    split at hv
    · split at hy
      · next hlen =>
        have h : u v = u y := (Option.some.inj hv).trans (Option.some.inj hy).symm
        exact ⟨by rw [← hu v, ← hu y, h], hlen⟩
      · simp at hy
    · simp at hv
  · rintro ⟨rfl, hlen⟩
    exact ⟨u v, by rw [if_pos hlen], by rw [if_pos hlen]⟩

section

variable {a : Address} {ref : List UInt8}

/-- What both resolvers write for the parts of a base. -/
def BothLead (a : Address) (ref : List UInt8) : Prop :=
  ∃ u, parseUrl (resolveWhole a.text ref) = some u ∧
    parseUrl (schemeText a.secure ++ a.host ++ portSuffix a.secure a.port ++ redirectRest a.rest ref)
      = some u

theorem bothLead_iff_path
    (hy : (redirectRest a.rest ref).head? = some 47 ∨
      a.port ≠ defaultPort a.secure ∧ ∀ c ∈ (redirectRest a.rest ref).head?, isDigit c = false) :
    BothLead a ref ↔ pathOf (linkRest a.rest ref) = pathOf (redirectRest a.rest ref) ∧
      (pathOf (redirectRest a.rest ref)).length < pathCap := by
  unfold BothLead
  rw [parseUrl_resolveWhole, parseUrl_redirect a hy]
  exact both_some_iff (u := fun p => ⟨a.secure, a.host, a.port, p⟩) fun _ => rfl

theorem bothLead_root_iff (hr : RootRelative ref) : BothLead a ref ↔ SameTarget a.url a.rest ref := by
  have hy : redirectRest a.rest ref = ref := by simp [redirectRest, hr.1]
  have hv : linkRest a.rest ref = a.rest.takeWhile (· ≠ 47) ++ ref := by simp [linkRest, hr.1]
  rw [bothLead_iff_path (by rw [hy]; exact .inl hr.1), hy, hv, SameTarget, if_pos hr.1,
    pathOf_of_head hr.1 (by decide)]
  refine and_congr_left fun _ => ?_
  constructor
  · intro h
    have hlen := Orion.Http.le_length_pathOf (a.rest.takeWhile (· ≠ 47) ++ ref)
    rw [h, List.length_append] at hlen
    have hnil : a.rest.takeWhile (· ≠ 47) = [] := List.length_eq_zero_iff.mp (by omega)
    cases hrest : a.rest with
    | nil => exact .inl rfl
    | cons c t =>
      rw [hrest] at hnil
      by_cases hc : c = 47
      · exact .inr (by rw [hc]; rfl)
      · simp [hc] at hnil
  · intro h
    have hnil : a.rest.takeWhile (· ≠ 47) = [] := by
      rcases h with h | h
      · rw [h]
        rfl
      · obtain ⟨t, ht⟩ := List.head?_eq_some_iff.mp h
        rw [ht]
        rfl
    rw [hnil, List.nil_append, pathOf_of_head hr.1 (by decide)]

/-- The directory of a path begins as the path does. -/
theorem dirOf_head {path : List UInt8} {c : UInt8} (hc : path.head? = some c) :
    dirOf path ≠ [] ∧ (dirOf path).head? = some c := by
  obtain ⟨t, rfl⟩ := List.head?_eq_some_iff.mp hc
  have hpre : ∀ n, (c :: t).take (n + 1) ≠ [] ∧ ((c :: t).take (n + 1)).head? = some c :=
    fun n => ⟨by simp, rfl⟩
  have hcap : pathCap = 160 := rfl
  show (c :: t).take (min (_ + 1) (pathCap - 1)) ≠ [] ∧
    ((c :: t).take (min (_ + 1) (pathCap - 1))).head? = some c
  rw [show ∀ k, min (k + 1) (pathCap - 1) = min k (pathCap - 2) + 1 from fun k => by omega]
  exact hpre _

/-- With a query or fragment directly behind host and port the two never meet. -/
theorem not_bothLead_query {c : UInt8} (hhead : ref.head? ≠ some 47) (hc : a.rest.head? = some c)
    (hquery : c = 63 ∨ c = 35) : ¬ BothLead a ref := by
  have hy : redirectRest a.rest ref = dirOf (pathOf a.rest) ++ ref := by simp [redirectRest, hhead]
  have hv : linkRest a.rest ref = dirText a.rest ++ ref := by simp [linkRest, hhead]
  have hnil : a.rest ≠ [] := fun h => by simp [h] at hc
  have hdirHead : (dirText a.rest ++ ref).head? = some c := by
    rw [List.head?_append_of_ne_nil _ (dirText_ne_nil _), dirText_head hnil, hc]
  have hpathOf : ∀ s : List UInt8, s.head? = some c → pathOf s = 47 :: s := by
    intro s hs
    obtain ⟨x, rfl⟩ := List.head?_eq_some_iff.mp hs
    rw [pathOf, if_pos hquery]
  have hdir : dirOf (pathOf a.rest) = [47] := by
    obtain ⟨t, hrest⟩ := List.head?_eq_some_iff.mp hc
    rw [hpathOf _ hc, hrest]
    rcases hquery with rfl | rfl <;> rfl
  rw [bothLead_iff_path (by rw [hy, hdir]; exact .inl rfl), hy, hv, hdir, hpathOf _ hdirHead]
  refine fun h => absurd (congrArg List.length h.1) ?_
  have hpos := List.length_pos_of_ne_nil (dirText_ne_nil a.rest)
  rw [List.singleton_append, pathOf_of_head (c := 47) rfl (by decide), List.length_cons,
    List.length_append, List.length_cons]
  omega

/-- A redirect that glues the path to the host does not lead where the link does. -/
theorem not_bothLead_glued {c : UInt8} (hpath : a.rest.length < pathCap) (hhead : ref.head? ≠ some 47)
    (hc : a.rest.head? = some c) (hquery : c ≠ 63 ∧ c ≠ 35)
    (hglued : c ≠ 47 ∧ a.port = defaultPort a.secure) : ¬ BothLead a ref := by
  have hy : redirectRest a.rest ref = dirOf a.rest ++ ref := by
    simp [redirectRest, hhead, pathOf_of_head hc hquery]
  have hv : linkRest a.rest ref = dirText a.rest ++ ref := by simp [linkRest, hhead]
  have hone := dirOf_head hc
  have hyHead : (redirectRest a.rest ref).head? = some c := by
    rw [hy, List.head?_append_of_ne_nil _ hone.1, hone.2]
  rintro ⟨u, hu, hun⟩
  rw [parseUrl_resolveWhole] at hu
  split at hu
  · have hw := (Option.some.inj hu).symm
    have hno : portSuffix a.secure a.port = [] := by simp [portSuffix, hglued.2]
    rw [hno, List.append_nil] at hun
    have hstart : ∀ d ∈ (redirectRest a.rest ref).head?, d ≠ 47 ∧ d ≠ 63 ∧ d ≠ 35 := by
      intro d hd
      obtain rfl := Option.some.inj (hyHead.symm.trans hd)
      exact ⟨hglued.1, hquery⟩
    have hlt := path_length_of_glued a (y := redirectRest a.rest ref) (by rw [hy]; simp [hone.1]) hstart hun
      (by rw [hw]) (by rw [hw])
    have hle := Orion.Http.le_length_pathOf (linkRest a.rest ref)
    have hdir := length_dirOf_le hpath
    rw [hw] at hlt
    simp only at hlt
    rw [hy, hv, List.length_append] at hlt
    rw [hv, List.length_append] at hle
    omega
  · simp at hu

theorem bothLead_plain_iff (hpath : (pathOf a.rest).length < pathCap) (hr : PlainRelative ref) :
    BothLead a ref ↔ SameTarget a.url a.rest ref := by
  have hhead : ref.head? ≠ some 47 := fun h => (hr.2.2 47 h).1 rfl
  have hy : redirectRest a.rest ref = dirOf (pathOf a.rest) ++ ref := by simp [redirectRest, hhead]
  have hv : linkRest a.rest ref = dirText a.rest ++ ref := by simp [linkRest, hhead]
  have hurl : a.url.path = pathOf a.rest := rfl
  rw [SameTarget, if_neg hhead, hurl]
  by_cases hnil : a.rest = []
  · -- the base has no path
    have hdir : dirOf (pathOf a.rest) = [47] := by rw [hnil]; rfl
    have hdirText : dirText a.rest = [47] := by rw [hnil]; rfl
    rw [bothLead_iff_path (by rw [hy, hdir]; exact .inl rfl), hy, hv, hdir, hdirText]
    simp [hnil, pathOf]
  obtain ⟨c, t, hrest⟩ := List.exists_cons_of_ne_nil hnil
  have hc : a.rest.head? = some c := by rw [hrest]; rfl
  simp only [hnil, false_or]
  by_cases hquery : c = 63 ∨ c = 35
  · have hplain : a.rest.takeWhile plainChar = [] := by
      rw [hrest]
      rcases hquery with rfl | rfl <;> rfl
    rw [hplain]
    exact iff_of_false (not_bothLead_query hhead hc hquery) (by simp)
  · simp only [not_or] at hquery
    have hrestPath : pathOf a.rest = a.rest := pathOf_of_head hc hquery
    rw [hrestPath] at hpath hy ⊢
    have hdirIff := dirText_eq_dirOf_iff hpath hc hquery
    have hone := dirOf_head hc
    have hdirHead : (dirText a.rest ++ ref).head? = some c := by
      rw [List.head?_append_of_ne_nil _ (dirText_ne_nil _), dirText_head hnil, hc]
    have hyHead : (redirectRest a.rest ref).head? = some c := by
      rw [hy, List.head?_append_of_ne_nil _ hone.1, hone.2]
    by_cases hglued : c ≠ 47 ∧ a.port = defaultPort a.secure
    · refine iff_of_false (not_bothLead_glued hpath hhead hc hquery hglued) fun h => ?_
      rcases h.1.1 with h1 | h1
      · exact absurd (Option.some.inj (hc.symm.trans h1)) hglued.1
      · exact absurd hglued.2 h1
    · have hyOk : (redirectRest a.rest ref).head? = some 47 ∨ a.port ≠ defaultPort a.secure ∧
          ∀ d ∈ (redirectRest a.rest ref).head?, isDigit d = false := by
        rw [hyHead]
        by_cases hc47 : c = 47
        · exact .inl (congrArg some hc47)
        · refine .inr ⟨fun h => hglued ⟨hc47, h⟩, ?_⟩
          rintro d hd
          obtain rfl := Option.some.inj hd
          refine a.rest_noDigit (fun h => ?_) c hc
          rcases a.rest_end h c hc with h | h | h
          · exact hc47 h
          · exact hquery.1 h
          · exact hquery.2 h
      rw [bothLead_iff_path hyOk, hy, hv, pathOf_of_head hdirHead hquery,
        pathOf_of_head (hy ▸ hyHead) hquery, List.append_left_inj, hdirIff]
      have hstart : a.rest.head? = some 47 ∨ a.url.port ≠ defaultPort a.url.secure := by
        by_cases hc47 : c = 47
        · exact .inl (hc47 ▸ hc)
        · exact .inr fun h => hglued ⟨hc47, h⟩
      simp only [hstart, true_and, and_assoc]

end

/-- **When a link and a redirect go to the same place.**  For every base that `parse_url` accepts and
every relative reference, if both results fit their buffers, `resolve` and `resolve_redirect` lead to
the same scheme, host, port and path exactly when `SameTarget` holds. -/
theorem resolvers_agree_iff {tls : Bool} {base ref n : List UInt8} {url : Url}
    (hbase : parseUrl base = some url) (hb0 : 0 ∉ base) (hr0 : 0 ∉ ref)
    (hr : RootRelative ref ∨ PlainRelative ref)
    (hlink : (resolveWhole base ref).length < velaUrlCap)
    (hredirect : resolveFull base ref = some n) (hn : n.length < locationCap) :
    (∃ link redirect u, resolve tls base ref = .ok link ∧
        resolveRedirect base ref locationCap = .url redirect ∧
        parseUrl link = some u ∧ parseUrl redirect = some u) ↔
      SameTarget url (Orion.Http.restOf base) ref := by
  obtain ⟨a, rfl, rfl, hpath⟩ := parseUrl_address hbase
  have htext : a.text = schemeText a.secure ++ (a.host ++ a.portText ++ a.rest) := by
    simp only [Address.text, Address.authority, List.append_assoc]
  have hresolve : resolve tls a.text ref = .ok (resolveWhole a.text ref) := by
    rw [resolve_eq_take htext hb0 hr0 hr, List.take_of_length_le (by omega)]
  have hfull := resolveFull_address a hpath hr
  obtain rfl := Option.some.inj (hfull.symm.trans hredirect)
  have hget : resolveRedirect a.text ref locationCap = .url _ :=
    Orion.Http.resolveRedirect_eq_url_iff.mpr
      ⟨by decide, _, hfull, (List.take_of_length_le (by omega)).symm⟩
  have hboth : BothLead a ref ↔ SameTarget a.url a.rest ref := by
    rcases hr with hr | hr
    · exact bothLead_root_iff hr
    · exact bothLead_plain_iff hpath hr
  rw [a.restOf_text, ← hboth, hresolve, hget]
  constructor
  · rintro ⟨link, redirect, u, hl, hd, h1, h2⟩
    rw [Except.ok.injEq] at hl
    rw [Orion.Http.Resolved.url.injEq] at hd
    exact ⟨u, hl ▸ h1, hd ▸ h2⟩
  · rintro ⟨u, h1, h2⟩
    exact ⟨_, _, u, rfl, rfl, h1, h2⟩

/-- A link in a page without a query. -/
theorem resolvers_agree_smoke :
    ∃ link redirect u, resolve true (ascii "http://h/a/b") (ascii "c") = .ok link ∧
      resolveRedirect (ascii "http://h/a/b") (ascii "c") locationCap = .url redirect ∧
      parseUrl link = some u ∧ parseUrl redirect = some u :=
  (@resolvers_agree_iff true (ascii "http://h/a/b") (ascii "c") (ascii "http://h/a/c")
    ⟨false, ascii "h", 80, ascii "/a/b"⟩ (by decide) (by decide) (by decide)
    (.inr (by unfold PlainRelative; decide +kernel)) (by decide) (by decide) (by decide)).mpr
    (by unfold SameTarget; decide)

/-- In a page whose query has a slash, the link stays in the query. -/
theorem resolvers_disagree :
    (∃ url, parseUrl (ascii "http://h/a?x=/b") = some url) ∧ PlainRelative (ascii "c") ∧
      (resolveWhole (ascii "http://h/a?x=/b") (ascii "c")).length < velaUrlCap ∧
      resolve true (ascii "http://h/a?x=/b") (ascii "c") = .ok (ascii "http://h/a?x=/c") ∧
      resolveRedirect (ascii "http://h/a?x=/b") (ascii "c") locationCap = .url (ascii "http://h/c") ∧
      (parseUrl (ascii "http://h/a?x=/c")).map (·.path) = some (ascii "/a?x=/c") ∧
      (parseUrl (ascii "http://h/c")).map (·.path) = some (ascii "/c") := by
  refine ⟨⟨⟨false, ascii "h", 80, ascii "/a?x=/b"⟩, by decide⟩, ?_, by decide, by decide, by decide,
    by decide, by decide⟩
  unfold PlainRelative
  decide +kernel

end Orion.Vela
