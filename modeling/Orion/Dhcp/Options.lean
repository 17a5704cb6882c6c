import Orion.Dhcp.Packet

/-!
# The option grammar

An option area is a sequence of pad bytes and options (code, length, value), up to an end mark or to the
end of the packet.  `Options` is this grammar, and `leaseOf` reads a lease off the list of options: each
field from the last option that has its code and a size that is taken.  `dhcp_parse_reply` is exactly
this (`dhcp_parse_reply_spec`).
-/

namespace Orion.Dhcp

open Orion.Traced

/-! ## Spans of memory -/

/-- The `n` bytes at `i`. -/
def span (mem : ℕ → UInt8) (i n : ℕ) : List UInt8 := (List.range n).map fun k => mem (i + k)

@[simp] theorem length_span (mem : ℕ → UInt8) (i n : ℕ) : (span mem i n).length = n := by
  simp [span]

theorem span_succ (mem : ℕ → UInt8) (i n : ℕ) : span mem i (n + 1) = mem i :: span mem (i + 1) n := by
  simp only [span, List.range_succ_eq_map, List.map_cons, List.map_map, Nat.add_zero, List.cons.injEq,
    true_and]
  refine List.map_congr_left fun k _ => ?_
  show mem (i + (k + 1)) = mem (i + 1 + k)
  rw [show i + (k + 1) = i + 1 + k by omega]

theorem span_add (mem : ℕ → UInt8) (i m n : ℕ) :
    span mem i (m + n) = span mem i m ++ span mem (i + m) n := by
  induction m generalizing i with
  | zero => rw [Nat.zero_add, Nat.add_zero]; rfl
  | succ m ih =>
    rw [show m + 1 + n = m + n + 1 by omega, span_succ, ih, span_succ, List.cons_append,
      show i + (m + 1) = i + 1 + m by omega]

/-- A part of a span. -/
theorem span_part {mem : ℕ → UInt8} {p len i n : ℕ} (h : i + n ≤ len) :
    ((span mem p len).drop i).take n = span mem (p + i) n := by
  have hlen : len = i + (n + (len - (i + n))) := by omega
  rw [hlen, span_add, span_add, List.drop_left' (length_span mem p i),
    List.take_left' (length_span mem (p + i) n)]

theorem span_drop {mem : ℕ → UInt8} {p len i : ℕ} (h : i ≤ len) :
    (span mem p len).drop i = span mem (p + i) (len - i) := by
  have hpart := @span_part mem p len i (len - i) (by omega)
  rwa [List.take_of_length_le (by simp)] at hpart

/-! ## The grammar -/

/-- `Options area os tail`: up to `tail` the area is pad bytes and the options `os`; `tail` is empty or
starts with the end mark. -/
inductive Options : List UInt8 → List (UInt8 × List UInt8) → List UInt8 → Prop
  | finish {tail : List UInt8} (h : ∀ c ∈ tail.head?, c = 255) : Options tail [] tail
  | pad {s tail : List UInt8} {os : List (UInt8 × List UInt8)} (h : Options s os tail) :
      Options (0 :: s) os tail
  | option {code : UInt8} {value s tail : List UInt8} {os : List (UInt8 × List UInt8)}
      (hpad : code ≠ 0) (hend : code ≠ 255) (hlen : value.length < 256) (h : Options s os tail) :
      Options (code :: UInt8.ofNat value.length :: (value ++ s)) ((code, value) :: os) tail

theorem Options.nil_iff {os : List (UInt8 × List UInt8)} {tail : List UInt8} :
    Options [] os tail ↔ os = [] ∧ tail = [] := by
  constructor
  · intro h
    cases h
    exact ⟨rfl, rfl⟩
  · rintro ⟨rfl, rfl⟩
    exact .finish (by simp)

theorem Options.pad_iff {s tail : List UInt8} {os : List (UInt8 × List UInt8)} :
    Options (0 :: s) os tail ↔ Options s os tail := by
  constructor
  · intro h
    cases h with
    | finish h => exact absurd (h 0 rfl) (by decide)
    | pad h => exact h
    | option hpad => exact absurd rfl hpad
  · exact .pad

theorem Options.end_iff {s tail : List UInt8} {os : List (UInt8 × List UInt8)} :
    Options (255 :: s) os tail ↔ os = [] ∧ tail = 255 :: s := by
  constructor
  · intro h
    cases h with
    | finish => exact ⟨rfl, rfl⟩
    | option _ hend => exact absurd rfl hend
  · rintro ⟨rfl, rfl⟩
    exact .finish (by simp)

/-- An option: its length byte, and as many bytes behind it. -/
theorem Options.option_iff {code n : UInt8} {value s tail : List UInt8} {os : List (UInt8 × List UInt8)}
    (hpad : code ≠ 0) (hend : code ≠ 255) (hlen : value.length = n.toNat) :
    Options (code :: n :: (value ++ s)) os tail ↔ ∃ os', os = (code, value) :: os' ∧ Options s os' tail := by
  constructor
  · intro h
    generalize harea : code :: n :: (value ++ s) = area at h
    cases h with
    | finish h =>
      rw [← harea] at h
      exact absurd (h code rfl) hend
    | pad => exact absurd (List.cons.inj harea).1 hpad
    | @option _ value' s' _ os' _ _ hlen' h =>
      simp only [List.cons.injEq] at harea
      obtain ⟨rfl, rfl, happ⟩ := harea
      rw [UInt8.toNat_ofNat', Nat.mod_eq_of_lt hlen'] at hlen
      obtain ⟨rfl, rfl⟩ := List.append_inj happ hlen
      exact ⟨os', rfl, h⟩
  · rintro ⟨os', rfl, h⟩
    have hopt := Options.option hpad hend (by rw [hlen]; exact n.toNat_lt) h
    rwa [hlen, UInt8.ofNat_toNat] at hopt

/-- An option that is cut short is none. -/
theorem Options.not_short {code : UInt8} {s tail : List UInt8} {os : List (UInt8 × List UInt8)}
    (hpad : code ≠ 0) (hend : code ≠ 255) (hshort : ∀ n ∈ s.head?, s.length ≤ n.toNat) :
    ¬ Options (code :: s) os tail := by
  intro h
  cases h with
  | finish h => exact hend (h code rfl)
  | pad => exact hpad rfl
  | @option _ value _ _ _ _ _ hlen h =>
    have hle := hshort _ rfl
    rw [UInt8.toNat_ofNat', Nat.mod_eq_of_lt hlen, List.length_cons, List.length_append] at hle
    omega

/-- An area is read in one way. -/
theorem Options.unique {area tail tail' : List UInt8} {os os' : List (UInt8 × List UInt8)}
    (h : Options area os tail) (h' : Options area os' tail') : os = os' ∧ tail = tail' := by
  induction h generalizing os' with
  | @finish tail hfin =>
    cases tail with
    | nil =>
      obtain ⟨rfl, rfl⟩ := Options.nil_iff.mp h'
      exact ⟨rfl, rfl⟩
    | cons c tail =>
      obtain rfl := hfin c rfl
      obtain ⟨rfl, rfl⟩ := Options.end_iff.mp h'
      exact ⟨rfl, rfl⟩
  | pad h ih => exact ih (Options.pad_iff.mp h')
  | @option code value s tail os hpad hend hlen h ih =>
    have hval : value.length = (UInt8.ofNat value.length).toNat := by
      rw [UInt8.toNat_ofNat', Nat.mod_eq_of_lt hlen]
    obtain ⟨os'', rfl, hrest⟩ := (Options.option_iff hpad hend hval).mp h'
    obtain ⟨rfl, rfl⟩ := ih hrest
    exact ⟨rfl, rfl⟩

/-! ## The lease -/

/-- A big-endian number. -/
def beValue (s : List UInt8) : ℕ := s.foldl (fun v c => v * 256 + c.toNat) 0

/-- The value of the last option with this code and a size that is taken. -/
def lastOption (os : List (UInt8 × List UInt8)) (code : UInt8) (sized : ℕ → Bool) :
    Option (List UInt8) :=
  (os.filter fun o => o.1 = code && sized o.2.length).getLast?.map Prod.snd

/-- The address in an option, or zero. -/
def addressOf (value : Option (List UInt8)) : List UInt8 := (value.map (List.take 4)).getD [0, 0, 0, 0]

/-- The lease that a list of options describes. -/
def leaseOf (ip : List UInt8) (os : List (UInt8 × List UInt8)) : OrionDhcpLease where
  messageType := ((lastOption os 53 (· = 1)).map (List.headD · 0)).getD 0
  ip := ip
  netmask := addressOf (lastOption os 1 (· = 4))
  gateway := addressOf (lastOption os 3 (4 ≤ ·))
  dns := addressOf (lastOption os 6 (4 ≤ ·))
  server := addressOf (lastOption os 54 (· = 4))
  leaseSeconds := ((lastOption os 51 (· = 4)).map beValue).getD 0
  haveNetmask := (lastOption os 1 (· = 4)).isSome
  haveGateway := (lastOption os 3 (4 ≤ ·)).isSome
  haveDns := (lastOption os 6 (4 ≤ ·)).isSome
  haveServer := (lastOption os 54 (· = 4)).isSome

theorem lastOption_append (os : List (UInt8 × List UInt8)) (code : UInt8) (value : List UInt8)
    (c : UInt8) (sized : ℕ → Bool) : lastOption (os ++ [(code, value)]) c sized =
      if code = c ∧ sized value.length = true then some value else lastOption os c sized := by
  unfold lastOption
  rw [List.filter_append]
  by_cases h : code = c ∧ sized value.length = true
  · rw [if_pos h]
    simp [h]
  · rw [if_neg h]
    have hnot : (decide (code = c) && sized value.length) = false := by
      simpa using h
    simp [hnot]

/-- What the parser does with an option, on the value as a list. -/
def applyOption (lease : OrionDhcpLease) (o : UInt8 × List UInt8) : OrionDhcpLease :=
  if o.1 = 53 ∧ o.2.length = 1 then { lease with messageType := o.2.headD 0 }
  else if o.1 = 1 ∧ o.2.length = 4 then { lease with netmask := o.2.take 4, haveNetmask := true }
  else if o.1 = 3 ∧ 4 ≤ o.2.length then { lease with gateway := o.2.take 4, haveGateway := true }
  else if o.1 = 6 ∧ 4 ≤ o.2.length then { lease with dns := o.2.take 4, haveDns := true }
  else if o.1 = 51 ∧ o.2.length = 4 then { lease with leaseSeconds := beValue o.2 }
  else if o.1 = 54 ∧ o.2.length = 4 then { lease with server := o.2.take 4, haveServer := true }
  else lease

/-- One more option changes the field of its code. -/
theorem leaseOf_append (ip : List UInt8) (os : List (UInt8 × List UInt8)) (code : UInt8)
    (value : List UInt8) :
    leaseOf ip (os ++ [(code, value)]) = applyOption (leaseOf ip os) (code, value) := by
  unfold applyOption
  simp only [leaseOf, lastOption_append, decide_eq_true_eq]
  by_cases h53 : code = 53 ∧ value.length = 1
  · obtain ⟨rfl, hlen⟩ := h53
    simp [hlen]
  by_cases h1 : code = 1 ∧ value.length = 4
  · obtain ⟨rfl, hlen⟩ := h1
    simp [hlen, addressOf]
  by_cases h3 : code = 3 ∧ 4 ≤ value.length
  · obtain ⟨rfl, hlen⟩ := h3
    simp [hlen, addressOf]
  by_cases h6 : code = 6 ∧ 4 ≤ value.length
  · obtain ⟨rfl, hlen⟩ := h6
    simp [hlen, addressOf]
  by_cases h51 : code = 51 ∧ value.length = 4
  · obtain ⟨rfl, hlen⟩ := h51
    simp [hlen]
  by_cases h54 : code = 54 ∧ value.length = 4
  · obtain ⟨rfl, hlen⟩ := h54
    simp [hlen, addressOf]
  simp only [h53, h1, h3, h6, h51, h54, if_false]

/-- **The options, applied in order, leave the last one of each kind.** -/
theorem foldl_applyOption (ip : List UInt8) (os : List (UInt8 × List UInt8)) :
    os.foldl applyOption { OrionDhcpLease.zero with ip := ip } = leaseOf ip os := by
  induction os using List.reverseRecOn with
  | nil => rfl
  | append_singleton os o ih =>
    obtain ⟨code, value⟩ := o
    rw [List.foldl_append, ih, leaseOf_append]
    rfl

/-! ## The loop -/

theorem beValue_span (mem : ℕ → UInt8) (i : ℕ) : beValue (span mem i 4) = (get32 mem i).value := by
  rw [value_get32]
  simp only [beValue, span, List.range_succ, List.range_zero, List.nil_append, List.cons_append,
    List.map_cons, List.map_nil, List.foldl_cons, List.foldl_nil, Nat.add_zero]
  omega

/-- The parser's work on an option. -/
theorem dhcpOption_value (mem : ℕ → UInt8) (lease : OrionDhcpLease) (code n : UInt8) (v : ℕ) :
    (dhcpOption mem lease code n v).value = applyOption lease (code, span mem v n.toNat) := by
  have hn : ∀ k : UInt8, n = k ↔ n.toNat = k.toNat := fun k => UInt8.toNat_inj.symm
  have hle : (4 : UInt8) ≤ n ↔ 4 ≤ n.toNat := UInt8.le_iff_toNat_le
  have htake : 4 ≤ n.toNat → (span mem v n.toNat).take 4 = span mem v 4 := by
    intro h
    have hpart := @span_part mem v n.toNat 0 4 (by omega)
    rwa [List.drop_zero, Nat.add_zero] at hpart
  unfold dhcpOption applyOption
  simp only [length_span, hle, hn, show (1 : UInt8).toNat = 1 from rfl, show (4 : UInt8).toNat = 4 from rfl]
  split
  · next h => rw [h.2]; rfl
  split
  · next h => rw [htake (by omega)]; rfl
  split
  · next h => rw [htake h.2]; rfl
  split
  · next h => rw [htake h.2]; rfl
  split
  · next h => rw [h.2, beValue_span]; rfl
  split
  · next h => rw [htake (by omega)]; rfl
  · rfl

/-- **The loop reads the grammar**: it succeeds on option areas, with the options applied in order. -/
theorem dhcpOptions_value (mem : ℕ → UInt8) (p len : ℕ) : ∀ {fuel o : ℕ} {lease r : OrionDhcpLease},
    len - o ≤ fuel → o ≤ len →
      ((dhcpOptions mem p len fuel o lease).value = some r ↔
        ∃ os tail, Options (span mem (p + o) (len - o)) os tail ∧ r = os.foldl applyOption lease) := by
  intro fuel
  induction fuel with
  | zero =>
    intro o lease r hfuel ho
    have hnil : span mem (p + o) (len - o) = [] := by
      rw [show len - o = 0 by omega]
      rfl
    rw [dhcpOptions, hnil]
    simp [Options.nil_iff, eq_comm]
  | succ fuel ih =>
    intro o lease r hfuel ho
    rw [dhcpOptions, value_ite]
    by_cases hlt : o < len
    · obtain ⟨m, hm⟩ : ∃ m, len - o = m + 1 := ⟨len - o - 1, by omega⟩
      rw [if_pos hlt, value_bind, value_read, value_ite, value_ite, value_ite, hm, span_succ]
      by_cases hpad : mem (p + o) = 0
      · rw [if_pos hpad, hpad]
        simp only [Options.pad_iff]
        have hih := @ih (o + 1) lease r (by omega) (by omega)
        rwa [show len - (o + 1) = m by omega, ← Nat.add_assoc] at hih
      rw [if_neg hpad]
      by_cases hend : mem (p + o) = 255
      · rw [if_pos hend, hend]
        simp [Options.end_iff, eq_comm]
      rw [if_neg hend]
      by_cases hshort : o + 1 ≥ len
      · obtain rfl : m = 0 := by omega
        have hcut := fun os tail => @Options.not_short _ [] tail os hpad hend (by simp)
        rw [if_pos hshort]
        simp [span, hcut]
      obtain ⟨k, rfl⟩ : ∃ k, m = k + 1 := ⟨m - 1, by omega⟩
      rw [if_neg hshort, value_bind, value_read, value_ite, span_succ]
      simp only [← Nat.add_assoc]
      generalize mem (p + o + 1) = n
      by_cases hfit : n.toNat > len - (o + 2)
      · have hcut : ∀ n' ∈ (n :: span mem (p + o + 1 + 1) k).head?,
            (n :: span mem (p + o + 1 + 1) k).length ≤ n'.toNat := by
          rintro n' ⟨⟩
          rw [List.length_cons, length_span]
          omega
        rw [if_pos hfit]
        simp [Options.not_short hpad hend hcut]
      · have hlen : k = n.toNat + (len - (o + 2 + n.toNat)) := by omega
        rw [if_neg hfit, value_bind, dhcpOption_value, ih (by omega) (by omega), hlen, span_add,
          show p + (o + 2 + n.toNat) = p + o + 1 + 1 + n.toNat by omega]
        simp only [Options.option_iff hpad hend (length_span _ _ _)]
        constructor
        · rintro ⟨os, tail, hos, rfl⟩
          exact ⟨_, tail, ⟨os, rfl, hos⟩, rfl⟩
        · rintro ⟨os, tail, ⟨os', rfl, hos⟩, rfl⟩
          exact ⟨os', tail, hos, rfl⟩
    · have hnil : span mem (p + o) (len - o) = [] := by
        rw [show len - o = 0 by omega]
        rfl
      rw [if_neg hlt, hnil]
      simp [Options.nil_iff, eq_comm]

/-! ## What is read -/

theorem within_dhcpOption {P : ℕ → Prop} (mem : ℕ → UInt8) (lease : OrionDhcpLease) (code n : UInt8)
    {v : ℕ} (h : ∀ k < n.toNat, P (v + k)) : Within P (dhcpOption mem lease code n v) := by
  have hone : n = 1 → P v := by
    rintro rfl
    exact h 0 (by decide)
  have hfour : 4 ≤ n → ∀ k < 4, P (v + k) := by
    intro hle k hk
    have hnat : 4 ≤ n.toNat := UInt8.le_iff_toNat_le.mp hle
    exact h k (by omega)
  have hexact : n = 4 → ∀ k < 4, P (v + k) := by
    rintro rfl
    exact hfour (by decide)
  have hword : n = 4 → P v ∧ P (v + 1) ∧ P (v + 2) ∧ P (v + 3) := by
    intro hn
    exact ⟨hexact hn 0 (by omega), hexact hn 1 (by omega), hexact hn 2 (by omega), hexact hn 3 (by omega)⟩
  unfold dhcpOption
  simp only [within_ite, within_bind, within_read, within_readSpan, within_get32, within_pure, and_true]
  refine ⟨fun hc => hone hc.2, fun _ => ⟨fun hc => hexact hc.2, fun _ => ⟨fun hc => hfour hc.2,
    fun _ => ⟨fun hc => hfour hc.2, fun _ => ⟨fun hc => hword hc.2, fun _ => ⟨fun hc => hexact hc.2,
      fun _ => trivial⟩⟩⟩⟩⟩⟩

theorem within_dhcpOptions (mem : ℕ → UInt8) (p len : ℕ) : ∀ (fuel o : ℕ) (lease : OrionDhcpLease),
    Within (fun i => p ≤ i ∧ i < p + len) (dhcpOptions mem p len fuel o lease) := by
  intro fuel
  induction fuel with
  | zero =>
    intro o lease
    exact within_pure _ _
  | succ fuel ih =>
    intro o lease
    rw [dhcpOptions]
    simp only [within_ite, within_bind, within_read, within_pure]
    refine ⟨fun hlt => ⟨by omega, fun _ => ih _ _, fun _ => ⟨fun _ => trivial, fun _ =>
      ⟨fun _ => trivial, fun hlen => ⟨by omega, fun _ => trivial, fun hfit => ⟨?_, ih _ _⟩⟩⟩⟩⟩,
      fun _ => trivial⟩
    exact within_dhcpOption _ _ _ _ fun k hk => by omega

theorem within_dhcpParseReply (mem : ℕ → UInt8) (p len xid : ℕ) (mac : List UInt8) :
    Within (fun i => p ≤ i ∧ i < p + len) (dhcpParseReply mem p len xid mac) := by
  unfold dhcpParseReply dhcpParseOptions
  simp only [within_ite, within_bind, within_read, within_readSpan, within_get32, within_pure]
  refine ⟨fun _ => trivial, fun hlen => ⟨by omega, by omega, by omega, fun _ => trivial, fun _ =>
    ⟨by omega, fun _ => trivial, fun _ => ⟨fun k hk => by omega, fun _ => trivial, fun _ =>
      ⟨by omega, fun _ => trivial, fun _ => ⟨fun k hk => by omega, within_dhcpOptions _ _ _ _ _ _, ?_⟩⟩⟩⟩⟩⟩
  split
  · exact within_pure _ _
  · split <;> exact within_pure _ _

/-! ## The parser -/

/-- The first 240 bytes of a reply to this transaction. -/
structure FixedPart (packet : List UInt8) (xid : ℕ) (mac : List UInt8) : Prop where
  length : 240 ≤ packet.length
  hardware : packet.take 3 = [2, 1, 6]
  xid : beValue ((packet.drop 4).take 4) = xid
  chaddr : (packet.drop 28).take 6 = mac
  cookie : (packet.drop 236).take 4 = put32 dhcpCookie

/-- A value that is taken has the size for it. -/
theorem lastOption_sized {os : List (UInt8 × List UInt8)} {code : UInt8} {sized : ℕ → Bool}
    {value : List UInt8} (h : lastOption os code sized = some value) : sized value.length = true := by
  obtain ⟨o, ho, rfl⟩ := Option.map_eq_some_iff.mp h
  have hmem := List.mem_filter.mp (List.mem_of_getLast? ho)
  exact (Bool.and_eq_true_iff.mp hmem.2).2

theorem leaseOf_messageType (ip : List UInt8) (os : List (UInt8 × List UInt8)) :
    (leaseOf ip os).messageType ≠ 0 ↔ ∃ t, t ≠ 0 ∧ lastOption os 53 (· = 1) = some [t] := by
  unfold leaseOf
  cases hlast : lastOption os 53 (· = 1) with
  | none => simp
  | some value =>
    have hlen : value.length = 1 := by simpa using lastOption_sized hlast
    obtain ⟨t, rfl⟩ := List.length_eq_one_iff.mp hlen
    simp

/-- The four bytes of the cookie. -/
theorem cookie_iff (mem : ℕ → UInt8) (i : ℕ) :
    (get32 mem i).value = dhcpCookie ↔ span mem i 4 = put32 dhcpCookie := by
  have hspan : span mem i 4 = [mem i, mem (i + 1), mem (i + 2), mem (i + 3)] := rfl
  rw [hspan]
  constructor
  · intro h
    have h0 := (mem i).toNat_lt
    have h1 := (mem (i + 1)).toNat_lt
    have h2 := (mem (i + 2)).toNat_lt
    have h3 := (mem (i + 3)).toNat_lt
    rw [value_get32, dhcpCookie] at h
    have e0 : mem i = 0x63 := UInt8.toNat_inj.mp (by show (mem i).toNat = 0x63; omega)
    have e1 : mem (i + 1) = 0x82 := UInt8.toNat_inj.mp (by show (mem (i + 1)).toNat = 0x82; omega)
    have e2 : mem (i + 2) = 0x53 := UInt8.toNat_inj.mp (by show (mem (i + 2)).toNat = 0x53; omega)
    have e3 : mem (i + 3) = 0x63 := UInt8.toNat_inj.mp (by show (mem (i + 3)).toNat = 0x63; omega)
    rw [e0, e1, e2, e3]
    decide
  · intro h
    exact get32_of_put32 h (by decide)

theorem dhcpParseOptions_some {mem : ℕ → UInt8} {p len : ℕ} {lease : OrionDhcpLease} (hlen : 240 ≤ len) :
    (dhcpParseOptions mem p len).value = some lease ↔ span mem (p + 236) 4 = put32 dhcpCookie ∧
      ∃ os tail, Options (span mem (p + 240) (len - 240)) os tail ∧
        (leaseOf (span mem (p + 16) 4) os).messageType ≠ 0 ∧
        lease = leaseOf (span mem (p + 16) 4) os := by
  have hloop := fun r => @dhcpOptions_value mem p len len 240
    { OrionDhcpLease.zero with ip := span mem (p + 16) 4 } r (by omega) hlen
  have hip : (readSpan mem (p + 16) 4).value = span mem (p + 16) 4 := rfl
  simp only [foldl_applyOption] at hloop
  unfold dhcpParseOptions
  rw [guard_some_iff, not_not, cookie_iff, value_bind, hip, value_bind]
  refine and_congr_right fun _ => ?_
  cases hvalue : (dhcpOptions mem p len len 240 { OrionDhcpLease.zero with
      ip := span mem (p + 16) 4 }).value with
  | none =>
    have hno : ∀ os tail, ¬ Options (span mem (p + 240) (len - 240)) os tail := by
      intro os tail hos
      have := (hloop _).mpr ⟨os, tail, hos, rfl⟩
      simp [hvalue] at this
    simp [hno]
  | some l =>
    obtain ⟨os, tail, hos, rfl⟩ := (hloop l).mp hvalue
    simp only [value_ite, value_pure]
    constructor
    · intro h
      split at h
      · next htype => exact ⟨os, tail, hos, htype, (Option.some.inj h).symm⟩
      · simp at h
    · rintro ⟨os', tail', hos', htype, rfl⟩
      obtain ⟨rfl, -⟩ := hos.unique hos'
      rw [if_pos htype]

/-- **The DHCP reply parser implements the option grammar**: it reads only inside the packet, and
succeeds exactly if the fixed part matches and the rest is an option area whose last message type of
one byte is not zero, with the lease that the options describe. -/
theorem dhcp_parse_reply_spec (mem : ℕ → UInt8) (p len xid : ℕ) (mac : List UInt8) :
    Within (fun i => p ≤ i ∧ i < p + len) (dhcpParseReply mem p len xid mac) ∧
    ∀ lease, (dhcpParseReply mem p len xid mac).value = some lease ↔
      FixedPart (span mem p len) xid mac ∧
      ∃ os tail, Options ((span mem p len).drop 240) os tail ∧
        (∃ t, t ≠ 0 ∧ lastOption os 53 (· = 1) = some [t]) ∧
        lease = leaseOf (((span mem p len).drop 16).take 4) os := by
  refine ⟨within_dhcpParseReply mem p len xid mac, fun lease => ?_⟩
  by_cases hlen : 240 ≤ len
  · have hpart : ∀ i n, i + n ≤ 240 → ((span mem p len).drop i).take n = span mem (p + i) n :=
      fun i n h => span_part (by omega)
    have hop : (span mem p len).take 3 = [mem p, mem (p + 1), mem (p + 2)] := hpart 0 3 (by omega)
    have hfixed : FixedPart (span mem p len) xid mac ↔
        (mem p = 2 ∧ mem (p + 1) = 1 ∧ mem (p + 2) = 6) ∧ (get32 mem (p + 4)).value = xid ∧
          span mem (p + 28) 6 = mac ∧ span mem (p + 236) 4 = put32 dhcpCookie := by
      rw [← hpart 28 6 (by omega), ← hpart 236 4 (by omega), ← beValue_span, ← hpart 4 4 (by omega)]
      constructor
      · intro h
        have hhard := h.hardware
        rw [hop] at hhard
        exact ⟨by simpa using hhard, h.xid, h.chaddr, h.cookie⟩
      · rintro ⟨hhard, hxid, hchaddr, hcookie⟩
        exact ⟨by rw [length_span]; exact hlen, by rw [hop]; simpa using hhard, hxid, hchaddr, hcookie⟩
    rw [hfixed, hpart 16 4 (by omega), span_drop hlen]
    simp only [← leaseOf_messageType (span mem (p + 16) 4)]
    unfold dhcpParseReply
    rw [if_neg (by omega), value_bind, value_bind, guard_some_iff, guard_some_iff, guard_some_iff,
      dhcpParseOptions_some hlen, not_not, not_not]
    simp only [value_read, value_readSpan, not_or, not_not, and_assoc]
    rfl
  · have hno : ¬ FixedPart (span mem p len) xid mac := by
      intro h
      have := h.length
      rw [length_span] at this
      exact hlen this
    unfold dhcpParseReply
    rw [if_pos (by omega)]
    simp [hno]

end Orion.Dhcp
