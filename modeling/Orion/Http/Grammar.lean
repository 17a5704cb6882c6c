import Orion.Http.Url

/-!
# The grammar of URLs

`parseUrlIn` is `parse_url` with buffers of any size.  Ports and paths are read back from their texts, so
the strings that it takes are put together from parts (`parseUrlIn_iff`), and where no port stands between
the host and something other than a path, a query or a fragment, these are just the strings of the grammar
(`parse_url_exact_iff`).
-/

namespace Orion.Http

/-! ## Ports and paths -/

def schemeText (secure : Bool) : List UInt8 := ascii (if secure then "https://" else "http://")

def defaultPort (secure : Bool) : ℕ := if secure then 443 else 80

/-- A port as it may stand behind a host: nothing, or a colon and a numeral. -/
def PortText (secure : Bool) (port : ℕ) (text : List UInt8) : Prop :=
  (text = [] ∧ port = defaultPort secure) ∨
    ∃ digits, text = 58 :: digits ∧ IsNumeral decDigit 10 digits port ∧ 0 < port ∧ port ≤ 65535

theorem decDigit_none {c : UInt8} (h : isDigit c = false) : decDigit c = none := by
  simp [decDigit, h]

theorem decDigit_isSome (c : UInt8) : (decDigit c).isSome = isDigit c := by
  unfold decDigit
  split <;> simp_all

/-- The port is read back. -/
theorem parsePort_text {secure : Bool} {port : ℕ} {p x : List UInt8} (h : PortText secure port p)
    (hend : p = [] → ∀ c ∈ x.head?, c = 47 ∨ c = 63 ∨ c = 35)
    (hdigit : p ≠ [] → ∀ c ∈ x.head?, isDigit c = false) :
    parsePort (defaultPort secure) (p ++ x) = some (port, x) := by
  rcases h with ⟨rfl, rfl⟩ | ⟨digits, rfl, hnum, hpos, hle⟩
  · rw [List.nil_append]
    cases x with
    | nil => rfl
    | cons c x =>
      have hc := hend rfl c rfl
      rw [parsePort]
      rintro s h
      obtain ⟨rfl, -⟩ := List.cons.inj h
      rcases hc with h | h | h <;> exact absurd h (by decide)
  · have hnext : ∀ c ∈ x.head?, decDigit c = none :=
      fun c hc => decDigit_none (hdigit (by simp) c hc)
    have hread := takeNumber_numeral x (by norm_num) hnum hle hnext
    have hlen : digits.length ≠ 0 := by
      have := hnum.1
      rwa [ne_eq, List.length_eq_zero_iff]
    rw [List.cons_append, parsePort, hread]
    simp only
    rw [if_neg (by omega)]

theorem parsePort_cases {secure : Bool} {s rest : List UInt8} {port : ℕ}
    (h : parsePort (defaultPort secure) s = some (port, rest)) :
    ∃ p, s = p ++ rest ∧ PortText secure port p ∧ (p = [] → s.head? ≠ some 58) ∧
      (p ≠ [] → ∀ c ∈ rest.head?, isDigit c = false) := by
  unfold parsePort at h
  split at h
  · next t =>
    split at h
    · simp at h
    · next v n r hread =>
      split at h
      · simp at h
      · next hne =>
        simp only [not_or] at hne
        obtain ⟨rfl, rfl⟩ := Prod.mk.inj (Option.some.inj h)
        obtain ⟨digits, htext, hnum, hle⟩ := takeNumber_some hread hne.1
        refine ⟨58 :: digits, by rw [htext]; rfl, .inr ⟨digits, rfl, hnum, by omega, hle⟩, by simp, ?_⟩
        intro _ c hc
        have hstop := (takeNumber_spec (by norm_num) _ _ _ hread).1
        rw [hstop] at hc
        have hno := dropWhile_head?_of (p := fun c => (decDigit c).isSome) hc
        rwa [decDigit_isSome] at hno
  · next hno =>
    obtain ⟨rfl, rfl⟩ := Prod.mk.inj (Option.some.inj h)
    refine ⟨[], rfl, .inl ⟨rfl, rfl⟩, ?_, by simp⟩
    intro _ hhead
    obtain ⟨t, ht⟩ := List.head?_eq_some_iff.mp hhead
    exact hno t ht

theorem pathOf_of_head {s : List UInt8} {c : UInt8} (h : s.head? = some c) (hc : c ≠ 63 ∧ c ≠ 35) :
    pathOf s = s := by
  cases s with
  | nil => simp at h
  | cons d s =>
    obtain rfl : d = c := by simpa using h
    rw [pathOf, if_neg (by simp [hc])]

theorem le_length_pathOf (s : List UInt8) : s.length ≤ (pathOf s).length := by
  cases s with
  | nil => simp
  | cons c s =>
    rw [pathOf]
    split <;> simp

theorem length_pathOf_le (s : List UInt8) : (pathOf s).length ≤ s.length + 1 := by
  cases s with
  | nil => simp [pathOf]
  | cons c s =>
    rw [pathOf]
    split <;> simp

/-! ## Buffers of any size -/

/-- `parse_url` with a host buffer of `hcap` bytes and a path buffer of `pcap` bytes. -/
def parseUrlIn (hcap pcap : ℕ) (url : List UInt8) : Option Url :=
  if hcap < 2 ∨ pcap < 2 then none
  else
    let scheme : Option (Bool × ℕ × List UInt8) :=
      if (ascii "https://").isPrefixOf url then some (true, 443, url.drop 8)
      else if (ascii "http://").isPrefixOf url then some (false, 80, url.drop 7)
      else none
    match scheme with
    | none => none
    | some (secure, default, s) =>
      let host := s.takeWhile (! isHostEnd ·)
      let s := s.dropWhile (! isHostEnd ·)
      if host.length ≥ hcap ∨ host = [] then none
      else
        match parsePort default s with
        | none => none
        | some (port, s) =>
          let path := pathOf s
          if path.length ≥ pcap then none else some ⟨secure, host, port, path⟩

theorem parseUrl_eq (url : List UInt8) : parseUrl url = parseUrlIn hostCap pathCap url := rfl

/-! ## The parts of a string -/

section

variable {hcap pcap : ℕ} {url : List UInt8} {u : Url}

/-- A string put together from a scheme, a host, a port text and a rest, and what `parse_url` is to find
in it. -/
structure Parts (hcap pcap : ℕ) (url : List UInt8) (u : Url) (port rest : List UInt8) : Prop where
  text : url = schemeText u.secure ++ u.host ++ port ++ rest
  host_ne_nil : u.host ≠ []
  host_plain : ∀ c ∈ u.host, c ≠ 47 ∧ c ≠ 58 ∧ c ≠ 63 ∧ c ≠ 35
  host_length : u.host.length < hcap
  port_ok : PortText u.secure u.port port
  path : u.path = pathOf rest
  path_length : u.path.length < pcap

/-- `/`, `?` or `#`. -/
def isRestStart (c : UInt8) : Prop := c = 47 ∨ c = 63 ∨ c = 35

/-- **The grammar**: what follows host and port is empty or begins with `/`, `?` or `#`. -/
def InGrammar (hcap pcap : ℕ) (url : List UInt8) (u : Url) : Prop :=
  ∃ port rest, Parts hcap pcap url u port rest ∧ ∀ c ∈ rest.head?, isRestStart c

/-- A port, and then a byte that neither continues the port nor begins a path, query or fragment. -/
def StrayAfterPort (hcap pcap : ℕ) (url : List UInt8) : Prop :=
  ∃ u port rest c, Parts hcap pcap url u port rest ∧ port ≠ [] ∧ rest.head? = some c ∧
    isDigit c = false ∧ ¬ isRestStart c

theorem not_isHostEnd {c : UInt8} :
    isHostEnd c = false ↔ c ≠ 47 ∧ c ≠ 58 ∧ c ≠ 63 ∧ c ≠ 35 := by
  simp only [isHostEnd, Bool.or_eq_false_iff, decide_eq_false_iff_not]
  tauto

/-- `parse_url` behind the scheme. -/
theorem parseUrlIn_scheme (hh : 2 ≤ hcap) (hp : 2 ≤ pcap) (secure : Bool) (s : List UInt8) :
    parseUrlIn hcap pcap (schemeText secure ++ s) =
      let host := s.takeWhile (! isHostEnd ·)
      let s := s.dropWhile (! isHostEnd ·)
      if host.length ≥ hcap ∨ host = [] then none
      else
        match parsePort (defaultPort secure) s with
        | none => none
        | some (port, s) =>
          if (pathOf s).length ≥ pcap then none else some ⟨secure, host, port, pathOf s⟩ := by
  rw [parseUrlIn, if_neg (by omega)]
  cases secure <;> rfl

/-- A string without a scheme is not taken. -/
theorem parseUrlIn_some_scheme (h : parseUrlIn hcap pcap url = some u) :
    ∃ secure s, url = schemeText secure ++ s := by
  by_cases htls : (ascii "https://").isPrefixOf url = true
  · obtain ⟨s, hs⟩ := List.isPrefixOf_iff_prefix.mp htls
    exact ⟨true, s, hs.symm⟩
  by_cases hplain : (ascii "http://").isPrefixOf url = true
  · obtain ⟨s, hs⟩ := List.isPrefixOf_iff_prefix.mp hplain
    exact ⟨false, s, hs.symm⟩
  simp [parseUrlIn, htls, hplain] at h

/-- The host is read up to the port or the rest. -/
theorem host_scan {secure : Bool} {host portText rest : List UInt8} {port : ℕ}
    (hplain : ∀ c ∈ host, isHostEnd c = false) (hport : PortText secure port portText)
    (hnone : portText = [] → ∀ c ∈ rest.head?, isRestStart c) :
    (host ++ (portText ++ rest)).takeWhile (! isHostEnd ·) = host ∧
      (host ++ (portText ++ rest)).dropWhile (! isHostEnd ·) = portText ++ rest := by
  have hall : ∀ c ∈ host, (! isHostEnd c) = true := by
    intro c hc
    rw [hplain c hc]
    rfl
  have hstop : ∀ c ∈ (portText ++ rest).head?, (! isHostEnd c) = false := by
    intro c hc
    rcases hport with ⟨rfl, -⟩ | ⟨digits, rfl, -⟩
    · rcases hnone rfl c hc with rfl | rfl | rfl <;> rfl
    · obtain rfl : 58 = c := by simpa using hc
      rfl
  exact ⟨takeWhile_append_stop hall hstop, dropWhile_append_stop hall hstop⟩

/-- A string that is put together from parts is taken apart again, if the path fits. -/
theorem parseUrlIn_text {secure : Bool} {host portText rest : List UInt8} {port : ℕ} (hh : 2 ≤ hcap)
    (hp : 2 ≤ pcap) (hne : host ≠ []) (hplain : ∀ c ∈ host, isHostEnd c = false)
    (hlen : host.length < hcap) (hport : PortText secure port portText)
    (hnone : portText = [] → ∀ c ∈ rest.head?, isRestStart c)
    (hsome : portText ≠ [] → ∀ c ∈ rest.head?, isDigit c = false) :
    parseUrlIn hcap pcap (schemeText secure ++ host ++ portText ++ rest) =
      if (pathOf rest).length < pcap then some ⟨secure, host, port, pathOf rest⟩ else none := by
  obtain ⟨htake, hdrop⟩ := host_scan hplain hport hnone
  rw [List.append_assoc, List.append_assoc, parseUrlIn_scheme hh hp]
  simp only [htake, hdrop, parsePort_text hport hnone hsome]
  rw [if_neg (by simp only [not_or]; exact ⟨by omega, hne⟩)]
  by_cases hpath : (pathOf rest).length < pcap
  · rw [if_pos hpath, if_neg (by omega)]
  · rw [if_neg hpath, if_pos (by omega)]

theorem Parts.parse {port rest : List UInt8} (h : Parts hcap pcap url u port rest)
    (hnone : port = [] → ∀ c ∈ rest.head?, isRestStart c)
    (hsome : port ≠ [] → ∀ c ∈ rest.head?, isDigit c = false) : parseUrlIn hcap pcap url = some u := by
  have hhost : u.host.length ≠ 0 := mt List.length_eq_zero_iff.mp h.host_ne_nil
  have hh := h.host_length
  have hp := h.path_length
  have hpath : 0 < u.path.length := by
    rw [h.path]
    cases rest with
    | nil => decide
    | cons c rest => exact lt_of_lt_of_le (Nat.succ_pos rest.length) (le_length_pathOf (c :: rest))
  rw [h.text, parseUrlIn_text (by omega) (by omega) h.host_ne_nil
    (fun c hc => not_isHostEnd.mpr (h.host_plain c hc)) hh h.port_ok hnone hsome, ← h.path, if_pos hp]

/-- **The strings that `parse_url` takes.** -/
theorem parseUrlIn_iff : parseUrlIn hcap pcap url = some u ↔
    ∃ port rest, Parts hcap pcap url u port rest ∧ (port = [] → ∀ c ∈ rest.head?, isRestStart c) ∧
      (port ≠ [] → ∀ c ∈ rest.head?, isDigit c = false) := by
  constructor
  · intro h
    obtain ⟨secure, s, rfl⟩ := parseUrlIn_some_scheme h
    have hcaps : 2 ≤ hcap ∧ 2 ≤ pcap := by
      by_contra hsmall
      rw [parseUrlIn, if_pos (by omega)] at h
      exact absurd h (by simp)
    rw [parseUrlIn_scheme hcaps.1 hcaps.2] at h
    simp only at h
    split at h
    · exact absurd h (by simp)
    next hhost =>
    simp only [not_or, not_le] at hhost
    cases hport : parsePort (defaultPort secure) (s.dropWhile (! isHostEnd ·)) with
    | none => simp [hport] at h
    | some r =>
      obtain ⟨port, rest⟩ := r
      simp only [hport] at h
      split at h
      · exact absurd h (by simp)
      next hpath =>
      obtain rfl := Option.some.inj h
      obtain ⟨p, hs, hp, hcolon, hdigit⟩ := parsePort_cases hport
      refine ⟨p, rest, ⟨?_, hhost.2, ?_, hhost.1, hp, rfl, not_le.mp hpath⟩, ?_, hdigit⟩
      · rw [List.append_assoc, List.append_assoc, ← hs, List.takeWhile_append_dropWhile]
      · intro c hc
        exact not_isHostEnd.mp (by simpa using List.mem_takeWhile_imp hc)
      · -- without a port the host ended for another reason than a colon
        intro hnil c hc
        rw [hnil, List.nil_append] at hs
        have hstop := dropWhile_head?_of (hs ▸ hc)
        have hno := hcolon hnil
        rw [hs, Option.mem_def.mp hc] at hno
        have hne : c ≠ 58 := fun he => hno (he ▸ rfl)
        simp only [isHostEnd, Bool.not_eq_false', Bool.or_eq_true, decide_eq_true_eq] at hstop
        unfold isRestStart
        tauto
  · rintro ⟨port, rest, hparts, hnone, hsome⟩
    exact hparts.parse hnone hsome

theorem InGrammar.parse (h : InGrammar hcap pcap url u) : parseUrlIn hcap pcap url = some u := by
  obtain ⟨port, rest, hparts, hrest⟩ := h
  refine hparts.parse (fun _ => hrest) fun _ c hc => ?_
  rcases hrest c hc with rfl | rfl | rfl <;> rfl

theorem InGrammar.path_head (h : InGrammar hcap pcap url u) : u.path.head? = some 47 := by
  obtain ⟨port, rest, hparts, hrest⟩ := h
  rw [hparts.path]
  cases rest with
  | nil => rfl
  | cons c rest =>
    rcases hrest c rfl with rfl | rfl | rfl <;> rfl

theorem InGrammar.path_length (h : InGrammar hcap pcap url u) : u.path.length < pcap := by
  obtain ⟨port, rest, hparts, -⟩ := h
  exact hparts.path_length

/-- A string that is taken is in the grammar, or something else stands behind its port. -/
theorem inGrammar_or_stray (h : parseUrlIn hcap pcap url = some u) :
    InGrammar hcap pcap url u ∨ StrayAfterPort hcap pcap url := by
  obtain ⟨port, rest, hparts, hnone, hsome⟩ := parseUrlIn_iff.mp h
  by_cases hrest : ∀ c ∈ rest.head?, isRestStart c
  · exact .inl ⟨port, rest, hparts, hrest⟩
  · have hport : port ≠ [] := fun hnil => hrest (hnone hnil)
    push Not at hrest
    obtain ⟨c, hc, hstray⟩ := hrest
    exact .inr ⟨u, port, rest, c, hparts, hport, hc, hsome hport c hc, hstray⟩

/-! ## Exactness -/

/-- `parse_url` takes a string just if it is in the grammar; the host, port and path that it returns
are then those of the string, and the path begins with a slash and leaves room for its end. -/
def ParsesExactly (hcap pcap : ℕ) (url : List UInt8) : Prop :=
  ((parseUrlIn hcap pcap url).isSome ↔ ∃ u, InGrammar hcap pcap url u) ∧
    ∀ u, parseUrlIn hcap pcap url = some u →
      InGrammar hcap pcap url u ∧ u.path.head? = some 47 ∧ u.path.length < pcap

/-- **`parse_url` keeps to its grammar, except for what it lets stand behind a port.** -/
theorem parse_url_exact_iff (hcap pcap : ℕ) (url : List UInt8) :
    ParsesExactly hcap pcap url ↔ ¬ StrayAfterPort hcap pcap url := by
  constructor
  · rintro ⟨-, hexact⟩ ⟨u, port, rest, c, hparts, hport, hc, hdigit, hstray⟩
    have hparse : parseUrlIn hcap pcap url = some u := by
      refine hparts.parse (fun hnil => absurd hnil hport) fun _ d hd => ?_
      obtain rfl : c = d := Option.some.inj (hc.symm.trans hd)
      exact hdigit
    -- the path is the rest as it stands, so it begins with the stray byte
    obtain ⟨-, hhead, -⟩ := hexact u hparse
    have hplain : c ≠ 63 ∧ c ≠ 35 := ⟨fun h => hstray (.inr (.inl h)), fun h => hstray (.inr (.inr h))⟩
    rw [hparts.path, pathOf_of_head hc hplain, hc] at hhead
    exact hstray (.inl (Option.some.inj hhead))
  · intro hno
    have hgrammar : ∀ u, parseUrlIn hcap pcap url = some u → InGrammar hcap pcap url u :=
      fun u hu => (inGrammar_or_stray hu).resolve_right hno
    refine ⟨⟨fun h => ?_, fun ⟨u, hu⟩ => Option.isSome_iff_exists.mpr ⟨u, hu.parse⟩⟩, fun u hu => ?_⟩
    · obtain ⟨u, hu⟩ := Option.isSome_iff_exists.mp h
      exact ⟨u, hgrammar u hu⟩
    · exact ⟨hgrammar u hu, (hgrammar u hu).path_head, (hgrammar u hu).path_length⟩

/-- `http://h:80x` is taken, with the path `x`. -/
theorem stray_port_taken : ¬ ParsesExactly 96 160 (ascii "http://h:80x") := by
  rintro ⟨-, hexact⟩
  have hhead := (hexact ⟨false, ascii "h", 80, ascii "x"⟩ (by decide)).2.1
  exact absurd hhead (by decide)

end

end Orion.Http
