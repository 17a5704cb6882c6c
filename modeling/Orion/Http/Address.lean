import Orion.Http.Grammar

/-!
# The parts of an address

An address that `parse_url` takes is a scheme, a host, perhaps a port, and the rest (`Address`); and
it takes every text that is put together in this way if the path is not too long
(`Address.parseUrl_text`, `parseUrl_address`).
-/

namespace Orion.Http

/-- The parts of an address.  What follows the port may be any text that does not continue it. -/
structure Address where
  secure : Bool
  host : List UInt8
  port : ℕ
  portText : List UInt8
  rest : List UInt8
  host_ne_nil : host ≠ []
  host_plain : ∀ c ∈ host, isHostEnd c = false
  host_length : host.length < hostCap
  port_ok : PortText secure port portText
  rest_end : portText = [] → ∀ c ∈ rest.head?, c = 47 ∨ c = 63 ∨ c = 35
  rest_noDigit : portText ≠ [] → ∀ c ∈ rest.head?, isDigit c = false

namespace Address

def authority (a : Address) : List UInt8 := schemeText a.secure ++ a.host ++ a.portText

def text (a : Address) : List UInt8 := a.authority ++ a.rest

def url (a : Address) : Url := ⟨a.secure, a.host, a.port, pathOf a.rest⟩

end Address

/-! ## Parsing -/

/-- **`parse_url` takes every address apart that is put together from its parts**, if the path is not
too long. -/
theorem Address.parseUrl_text (a : Address) :
    parseUrl a.text = if (pathOf a.rest).length < pathCap then some a.url else none := by
  rw [parseUrl_eq]
  exact parseUrlIn_text (by decide) (by decide) a.host_ne_nil a.host_plain a.host_length a.port_ok
    a.rest_end a.rest_noDigit

/-- **Every address that `parse_url` takes is put together from parts.** -/
theorem parseUrl_address {t : List UInt8} {u : Url} (h : parseUrl t = some u) :
    ∃ a : Address, a.text = t ∧ a.url = u ∧ (pathOf a.rest).length < pathCap := by
  rw [parseUrl_eq] at h
  obtain ⟨port, rest, hparts, hnone, hsome⟩ := parseUrlIn_iff.mp h
  refine ⟨⟨u.secure, u.host, u.port, port, rest, hparts.host_ne_nil, ?_, hparts.host_length,
    hparts.port_ok, hnone, hsome⟩, hparts.text.symm, ?_, hparts.path ▸ hparts.path_length⟩
  · exact fun c hc => not_isHostEnd.mpr (hparts.host_plain c hc)
  · rw [Address.url, ← hparts.path]

/-! ## Putting addresses together -/

theorem decDigit_ofNat : ∀ d < 10, decDigit (UInt8.ofNat (48 + d)) = some d := by decide

theorem decimal_digits : ∀ (fuel v : ℕ), v < 10 ^ (fuel + 1) →
    ∃ ds : List ℕ, (decimal (fuel + 1) v).map decDigit = ds.map some ∧
      Nat.ofDigits 10 ds.reverse = v := by
  intro fuel
  induction fuel with
  | zero =>
    intro v hv
    have hlt : v < 10 := by omega
    refine ⟨[v], ?_, by simp⟩
    simp [-UInt8.ofNat_add, decimal, hlt, Nat.mod_eq_of_lt hlt, decDigit_ofNat v hlt]
  | succ fuel ih =>
    intro v hv
    have hmod := decDigit_ofNat (v % 10) (Nat.mod_lt _ (by norm_num))
    rw [decimal]
    by_cases hlt : v < 10
    · refine ⟨[v], ?_, by simp⟩
      rw [Nat.mod_eq_of_lt hlt] at hmod ⊢
      simp [-UInt8.ofNat_add, hlt, hmod]
    · have hdiv : v / 10 < 10 ^ (fuel + 1) := by
        rw [pow_succ] at hv
        omega
      obtain ⟨ds, hds, hval⟩ := ih (v / 10) hdiv
      refine ⟨ds ++ [v % 10], ?_, ?_⟩
      · rw [if_neg hlt, List.map_append, hds, List.map_append, List.map_singleton, hmod,
          List.map_singleton]
      · rw [List.reverse_append, List.reverse_singleton, List.singleton_append, Nat.ofDigits_cons,
          hval]
        have := Nat.div_add_mod v 10
        omega

/-- The digits of a port are a numeral of it. -/
theorem portDigits_numeral {port : ℕ} (h : port ≤ 65535) :
    IsNumeral decDigit 10 (portDigits port) port := by
  refine ⟨?_, decimal_digits 4 port (by omega)⟩
  simp [portDigits, decimal]

theorem PortText.range {secure : Bool} {port : ℕ} {p : List UInt8} (h : PortText secure port p) :
    0 < port ∧ port ≤ 65535 := by
  rcases h with ⟨-, rfl⟩ | ⟨-, -, -, hpos, hle⟩
  · cases secure <;> simp [defaultPort]
  · exact ⟨hpos, hle⟩

/-- The port as the code writes it. -/
def portSuffix (secure : Bool) (port : ℕ) : List UInt8 :=
  if port ≠ defaultPort secure then 58 :: portDigits port else []

theorem portSuffix_ok {secure : Bool} {port : ℕ} (h : 0 < port ∧ port ≤ 65535) :
    PortText secure port (portSuffix secure port) := by
  unfold portSuffix
  split
  · exact .inr ⟨_, rfl, portDigits_numeral h.2, h⟩
  · next hport =>
    rw [not_not] at hport
    exact .inl ⟨rfl, hport⟩

/-- The address with something else behind the port. -/
def Address.withRest (a : Address) (x : List UInt8)
    (hx : x.head? = a.rest.head? ∨ x.head? = some 47) : Address where
  secure := a.secure
  host := a.host
  port := a.port
  portText := a.portText
  rest := x
  host_ne_nil := a.host_ne_nil
  host_plain := a.host_plain
  host_length := a.host_length
  port_ok := a.port_ok
  rest_end := by
    intro hp c hc
    rcases hx with hx | hx
    · exact a.rest_end hp c (hx ▸ hc)
    · rw [hx] at hc
      exact .inl (Option.some.inj hc).symm
  rest_noDigit := by
    intro hp c hc
    rcases hx with hx | hx
    · exact a.rest_noDigit hp c (hx ▸ hc)
    · rw [hx] at hc
      obtain rfl : 47 = c := Option.some.inj hc
      rfl

/-- The address with the port as the code writes it and something else behind. -/
def Address.withPort (a : Address) (x : List UInt8)
    (hx : x.head? = some 47 ∨ a.port ≠ defaultPort a.secure ∧ ∀ c ∈ x.head?, isDigit c = false) :
    Address where
  secure := a.secure
  host := a.host
  port := a.port
  portText := portSuffix a.secure a.port
  rest := x
  host_ne_nil := a.host_ne_nil
  host_plain := a.host_plain
  host_length := a.host_length
  port_ok := portSuffix_ok a.port_ok.range
  rest_end := by
    intro hp c hc
    rcases hx with hx | ⟨hx, -⟩
    · rw [hx] at hc
      exact .inl (Option.some.inj hc).symm
    · simp [portSuffix, hx] at hp
  rest_noDigit := by
    intro _ c hc
    rcases hx with hx | ⟨-, hx⟩
    · rw [hx] at hc
      obtain rfl : 47 = c := Option.some.inj hc
      rfl
    · exact hx c hc

/-- What stands behind host and port. -/
def restOf (t : List UInt8) : List UInt8 :=
  let s := (t.drop (if (ascii "https://").isPrefixOf t then 8 else 7)).dropWhile (! isHostEnd ·)
  if s.head? = some 58 then (s.drop 1).dropWhile isDigit else s

theorem isDigit_of_numeral {digits : List UInt8} {n : ℕ} (h : IsNumeral decDigit 10 digits n) :
    ∀ c ∈ digits, isDigit c = true := by
  intro c hc
  obtain ⟨-, ds, hds, -⟩ := h
  have hmem : decDigit c ∈ ds.map some := hds ▸ List.mem_map_of_mem hc
  obtain ⟨d, -, hd⟩ := List.mem_map.mp hmem
  rw [← decDigit_isSome, ← hd]
  rfl

theorem Address.restOf_text (a : Address) : restOf a.text = a.rest := by
  obtain ⟨-, hdrop⟩ := host_scan a.host_plain a.port_ok a.rest_end
  have hbehind : a.text.drop (if (ascii "https://").isPrefixOf a.text then 8 else 7)
      = a.host ++ (a.portText ++ a.rest) := by
    have htext : a.text = schemeText a.secure ++ (a.host ++ (a.portText ++ a.rest)) := by
      simp only [Address.text, Address.authority, List.append_assoc]
    rw [htext]
    cases a.secure <;> rfl
  unfold restOf
  rw [hbehind, hdrop]
  rcases a.port_ok with ⟨hnil, -⟩ | ⟨digits, hdigits, hnum, -⟩
  · simp only [hnil, List.nil_append]
    rw [if_neg]
    intro hhead
    rcases a.rest_end hnil 58 hhead with h | h | h <;> exact absurd h (by decide)
  · have hstop := a.rest_noDigit (by simp [hdigits])
    rw [hdigits]
    simp only [List.cons_append, List.head?_cons, if_true, List.drop_succ_cons, List.drop_zero]
    rw [List.dropWhile_append_of_pos (isDigit_of_numeral hnum), dropWhile_of_head? hstop]

end Orion.Http
