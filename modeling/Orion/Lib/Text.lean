import Mathlib.Data.List.DropRight
import Mathlib.Data.List.Infix
import Mathlib.Data.Nat.Digits.Defs
import Mathlib.Tactic.Linarith

/-!
# Texts as byte lists

A C string is its bytes up to the terminating zero byte; a C buffer with a length is its bytes.
Here are the pieces that parsers of such texts are made of: lower case, digits and numbers, blanks,
lines, and the search for a substring.
-/

namespace Orion

/-- The bytes of an ASCII literal. -/
def ascii (s : String) : List UInt8 := s.toList.map Char.toUInt8

/-- A literal is its characters; this spares the kernel to decode it. -/
theorem ascii_ofList (l : List Char) : ascii (String.ofList l) = l.map Char.toUInt8 := by
  rw [ascii, String.toList_ofList]

theorem ascii_append (s t : String) : ascii (s ++ t) = ascii s ++ ascii t := by
  rw [ascii, String.toList_append, List.map_append, ascii, ascii]

/-! ## Characters -/

def cr : UInt8 := 13

def lf : UInt8 := 10

def isBlank (c : UInt8) : Bool := c = 32 || c = 9

def isDigit (c : UInt8) : Bool := 48 ≤ c && c ≤ 57

/-- The value of a decimal digit. -/
def digitVal (c : UInt8) : ℕ := c.toNat - 48

def lowerAscii (c : UInt8) : UInt8 := if 65 ≤ c ∧ c ≤ 90 then c + 32 else c

/-- Equality up to the case of ASCII letters. -/
def eqCi (a b : List UInt8) : Bool := a.map lowerAscii = b.map lowerAscii

/-- `p` is a prefix of `s` up to case. -/
def startsCi (s p : List UInt8) : Bool := (p.map lowerAscii).isPrefixOf (s.map lowerAscii)

/-- Only letters change when they are lowered. -/
theorem eq_of_lowerAscii {c d : UInt8} (hd : d < 65) (h : lowerAscii c = d) : c = d := by
  unfold lowerAscii at h
  split at h
  · next hc =>
    exfalso
    have hnat := congrArg UInt8.toNat h
    rw [UInt8.toNat_add] at hnat
    have h1 := UInt8.le_iff_toNat_le.mp hc.1
    have h2 := UInt8.le_iff_toNat_le.mp hc.2
    have h3 := UInt8.lt_iff_toNat_lt.mp hd
    simp at hnat h1 h2 h3
    omega
  · exact h

/-- A text that does not begin with a character that is no letter. -/
theorem startsCi_head_ne {c d : UInt8} (hd : d < 65) (hne : c ≠ d) (s p : List UInt8) :
    startsCi (c :: s) (d :: p) = false := by
  have hlow : lowerAscii d ≠ lowerAscii c := by
    intro h
    have hdd : lowerAscii d = d := by
      unfold lowerAscii
      rw [if_neg]
      intro hcase
      exact absurd (UInt8.lt_of_lt_of_le hd hcase.1) (UInt8.lt_irrefl d)
    exact hne (eq_of_lowerAscii hd (h.symm.trans hdd))
  simp [startsCi, List.isPrefixOf, hlow]

theorem startsCi_length {s p : List UInt8} (h : startsCi s p = true) : p.length ≤ s.length := by
  have hstart := (List.isPrefixOf_iff_prefix.mp h).length_le
  simpa using hstart

/-- Whether a text begins with `p` does not depend on what follows, once the text is long enough. -/
theorem startsCi_append {s p : List UInt8} (h : p.length ≤ s.length) (x : List UInt8) :
    startsCi (s ++ x) p = startsCi s p := by
  have hlen : (p.map lowerAscii).length ≤ (s.map lowerAscii).length := by simpa using h
  unfold startsCi
  rw [List.map_append, Bool.eq_iff_iff, List.isPrefixOf_iff_prefix, List.isPrefixOf_iff_prefix]
  constructor
  · intro hp
    exact List.prefix_of_prefix_length_le hp (List.prefix_append _ _) hlen
  · intro hp
    exact hp.trans (List.prefix_append _ _)

/-! ## Ends of lists -/

/-- A scan that stops inside a list does not depend on what follows. -/
theorem dropWhile_append_of_ne {α : Type*} {p : α → Bool} {l : List α} (h : l.dropWhile p ≠ [])
    (x : List α) : (l ++ x).dropWhile p = l.dropWhile p ++ x := by
  rw [List.dropWhile_append, if_neg (by simpa using h)]

theorem takeWhile_append_of_ne {α : Type*} {p : α → Bool} {l : List α} (h : l.dropWhile p ≠ [])
    (x : List α) : (l ++ x).takeWhile p = l.takeWhile p := by
  rw [List.takeWhile_append, if_neg]
  intro hlen
  have hall := congrArg List.length (@List.takeWhile_append_dropWhile _ p l)
  rw [List.length_append, hlen] at hall
  exact h (List.length_eq_zero_iff.mp (by omega))

theorem dropWhile_head?_of {α : Type*} {p : α → Bool} {l : List α} {c : α}
    (h : c ∈ (l.dropWhile p).head?) : p c = false := by
  have := List.head?_dropWhile_not p l
  rw [Option.mem_def.mp h] at this
  exact this

theorem dropWhile_of_head? {α : Type*} {p : α → Bool} {l : List α}
    (h : ∀ c ∈ l.head?, p c = false) : l.dropWhile p = l := by
  cases l with
  | nil => rfl
  | cons c l => rw [List.dropWhile_cons_of_neg (by simpa using h c rfl)]

/-- A run of `p`, and then something else. -/
theorem takeWhile_append_stop {α : Type*} {p : α → Bool} {l x : List α} (hl : ∀ a ∈ l, p a = true)
    (hx : ∀ c ∈ x.head?, p c = false) : (l ++ x).takeWhile p = l := by
  have hnone : x.takeWhile p = [] := by
    cases x with
    | nil => rfl
    | cons c x => rw [List.takeWhile_cons_of_neg (by simpa using hx c rfl)]
  rw [List.takeWhile_append_of_pos hl, hnone, List.append_nil]

theorem dropWhile_append_stop {α : Type*} {p : α → Bool} {l x : List α} (hl : ∀ a ∈ l, p a = true)
    (hx : ∀ c ∈ x.head?, p c = false) : (l ++ x).dropWhile p = x := by
  rw [List.dropWhile_append_of_pos hl, dropWhile_of_head? hx]

theorem drop_length_takeWhile {α : Type*} (p : α → Bool) (l : List α) :
    l.drop (l.takeWhile p).length = l.dropWhile p := by
  induction l with
  | nil => rfl
  | cons c l ih =>
    by_cases hc : p c = true
    · rw [List.takeWhile_cons_of_pos hc, List.dropWhile_cons_of_pos hc, List.length_cons,
        List.drop_succ_cons, ih]
    · rw [List.takeWhile_cons_of_neg hc, List.dropWhile_cons_of_neg hc, List.length_nil, List.drop_zero]

theorem rdropWhile_of_getLast? {α : Type*} {p : α → Bool} {l : List α}
    (h : ∀ c ∈ l.getLast?, p c = false) : l.rdropWhile p = l := by
  rw [List.rdropWhile_eq_self_iff]
  intro hl
  simpa using h _ (List.getLast?_eq_some_getLast hl)

theorem rdropWhile_append_of_all {α : Type*} {p : α → Bool} {l b : List α} (h : ∀ a ∈ b, p a = true) :
    (l ++ b).rdropWhile p = l.rdropWhile p := by
  rw [List.rdropWhile, List.reverse_append, List.dropWhile_append_of_pos (by simpa using h),
    List.rdropWhile]

theorem rdropWhile_append_of_ne {α : Type*} {p : α → Bool} {m : List α} (h : m.rdropWhile p ≠ [])
    (l : List α) : (l ++ m).rdropWhile p = l ++ m.rdropWhile p := by
  have hrev : m.reverse.dropWhile p ≠ [] := by
    intro hnil
    exact h (by rw [List.rdropWhile, hnil]; rfl)
  rw [List.rdropWhile, List.reverse_append, dropWhile_append_of_ne hrev, List.reverse_append,
    List.reverse_reverse, List.rdropWhile]

/-! ## Numbers -/

def decDigit (c : UInt8) : Option ℕ := if isDigit c then some (digitVal c) else none

def hexDigit (c : UInt8) : Option ℕ :=
  if isDigit c then some (digitVal c)
  else if 97 ≤ c ∧ c ≤ 102 then some (c.toNat - 97 + 10)
  else if 65 ≤ c ∧ c ≤ 70 then some (c.toNat - 65 + 10)
  else none

/-- Read digits from the front of a text: the value, the number of digits read and the rest; `none`
if the value exceeds `max` on the way, which C tests as `v > (max - d) / base`.  `v` and `n` are the
value and the number of digits so far. -/
def takeNumber (digit : UInt8 → Option ℕ) (base max : ℕ) :
    List UInt8 → ℕ → ℕ → Option (ℕ × ℕ × List UInt8)
  | [], v, n => some (v, n, [])
  | c :: s, v, n =>
    match digit c with
    | none => some (v, n, c :: s)
    | some d => if v * base + d > max then none else takeNumber digit base max s (v * base + d) (n + 1)

/-! ## Numerals -/

/-- `text` is a numeral of `n`: one digit or more, most significant first, leading zeros allowed. -/
def IsNumeral (digit : UInt8 → Option ℕ) (base : ℕ) (text : List UInt8) (n : ℕ) : Prop :=
  text ≠ [] ∧ ∃ ds : List ℕ, text.map digit = ds.map some ∧ Nat.ofDigits base ds.reverse = n

theorem takeNumber_digits {digit : UInt8 → Option ℕ} {base max : ℕ} (hb : 0 < base)
    {rest : List UInt8} (hrest : ∀ c ∈ rest.head?, digit c = none) :
    ∀ (text : List UInt8) (ds : List ℕ) (v n : ℕ), text.map digit = ds.map some →
      v * base ^ text.length + Nat.ofDigits base ds.reverse ≤ max →
      takeNumber digit base max (text ++ rest) v n
        = some (v * base ^ text.length + Nat.ofDigits base ds.reverse, n + text.length, rest) := by
  intro text
  induction text with
  | nil =>
    intro ds v n hds hle
    obtain rfl : ds = [] := by simpa using hds.symm
    cases rest with
    | nil => simp [takeNumber]
    | cons c rest =>
      have hc : digit c = none := hrest c (by simp)
      simp [takeNumber, hc]
  | cons c text ih =>
    intro ds v n hds hle
    cases ds with
    | nil => simp at hds
    | cons d ds =>
      simp only [List.map_cons, List.cons.injEq] at hds
      have hlen : ds.length = text.length := by
        simpa using (congrArg List.length hds.2).symm
      have hval : v * base ^ (c :: text).length + Nat.ofDigits base (d :: ds).reverse
          = (v * base + d) * base ^ text.length + Nat.ofDigits base ds.reverse := by
        rw [List.reverse_cons, Nat.ofDigits_append, Nat.ofDigits_singleton, List.length_reverse, hlen,
          List.length_cons, pow_succ]
        ring
      rw [hval] at hle ⊢
      -- the value so far never exceeds the final one
      have hsofar : v * base + d ≤ max := by
        have := Nat.le_mul_of_pos_right (v * base + d) (Nat.pow_pos hb : 0 < base ^ text.length)
        omega
      rw [List.cons_append, takeNumber]
      simp only [hds.1]
      rw [if_neg (by omega), ih ds _ _ hds.2 hle, List.length_cons]
      simp only [Option.some.injEq, Prod.mk.injEq, true_and, and_true]
      omega

/-- A numeral is read up to the first byte that is not a digit. -/
theorem takeNumber_numeral {digit : UInt8 → Option ℕ} {base max n : ℕ} {text : List UInt8}
    (rest : List UInt8) (hb : 0 < base) (h : IsNumeral digit base text n) (hn : n ≤ max)
    (hrest : ∀ c ∈ rest.head?, digit c = none) :
    takeNumber digit base max (text ++ rest) 0 0 = some (n, text.length, rest) := by
  obtain ⟨-, ds, hds, hval⟩ := h
  have hle : 0 * base ^ text.length + Nat.ofDigits base ds.reverse ≤ max := by omega
  rw [takeNumber_digits hb hrest text ds 0 0 hds hle, hval, Nat.zero_mul, Nat.zero_add, Nat.zero_add]

theorem IsNumeral.unique {digit : UInt8 → Option ℕ} {base m n : ℕ} {text : List UInt8}
    (hm : IsNumeral digit base text m) (hn : IsNumeral digit base text n) : m = n := by
  obtain ⟨-, ds, hds, rfl⟩ := hm
  obtain ⟨-, es, hes, rfl⟩ := hn
  rw [List.map_injective_iff.mpr (Option.some_injective ℕ) (hds.symm.trans hes)]

/-- The beginning of a numeral is the numeral of a smaller number. -/
theorem IsNumeral.of_append {digit : UInt8 → Option ℕ} {base n : ℕ} {a b : List UInt8}
    (h : IsNumeral digit base (a ++ b) n) (ha : a ≠ []) :
    ∃ m k, IsNumeral digit base a m ∧ n = k + base ^ b.length * m := by
  obtain ⟨-, ds, hds, rfl⟩ := h
  rw [List.map_append] at hds
  obtain ⟨es, fs, rfl, hes, hfs⟩ := List.append_eq_map_iff.mp hds
  have hlen : fs.length = b.length := by simpa using congrArg List.length hfs
  refine ⟨Nat.ofDigits base es.reverse, Nat.ofDigits base fs.reverse, ⟨ha, es, hes.symm, rfl⟩, ?_⟩
  rw [List.reverse_append, Nat.ofDigits_append, List.length_reverse, hlen]

section

variable {digit : UInt8 → Option ℕ} {base max : ℕ}

/-- What a number leaves starts with the first byte that is not a digit. -/
theorem takeNumber_spec (hb : 0 < base) : ∀ (s : List UInt8) (v n : ℕ) {v' n' : ℕ} {r : List UInt8},
    takeNumber digit base max s v n = some (v', n', r) →
      r = s.dropWhile (fun c => (digit c).isSome) ∧ n' + r.length = n + s.length ∧ v ≤ v' := by
  intro s
  induction s with
  | nil =>
    intro v n v' n' r h
    simp only [takeNumber, Option.some.injEq, Prod.mk.injEq] at h
    obtain ⟨rfl, rfl, rfl⟩ := h
    simp
  | cons c s ih =>
    intro v n v' n' r h
    rw [takeNumber] at h
    cases hd : digit c with
    | none =>
      simp only [hd, Option.some.injEq, Prod.mk.injEq] at h
      obtain ⟨rfl, rfl, rfl⟩ := h
      simp [hd]
    | some d =>
      simp only [hd] at h
      split at h
      · simp at h
      · obtain ⟨hr, hn, hv⟩ := ih _ _ h
        refine ⟨by rw [hr, List.dropWhile_cons_of_pos (by simp [hd])], ?_, ?_⟩
        · rw [hn, List.length_cons]
          omega
        · have := Nat.le_mul_of_pos_right v hb
          omega

/-- What a number consumes are digits, and the value is theirs. -/
theorem takeNumber_digits_of : ∀ (s : List UInt8) (v n : ℕ) {v' n' : ℕ} {r : List UInt8},
    takeNumber digit base max s v n = some (v', n', r) → v ≤ max →
      ∃ (text : List UInt8) (ds : List ℕ), s = text ++ r ∧ text.map digit = ds.map some ∧
        v' = v * base ^ text.length + Nat.ofDigits base ds.reverse ∧ n' = n + text.length ∧
        v' ≤ max := by
  intro s
  induction s with
  | nil =>
    intro v n v' n' r h hv
    simp only [takeNumber, Option.some.injEq, Prod.mk.injEq] at h
    obtain ⟨rfl, rfl, rfl⟩ := h
    exact ⟨[], [], by simp [hv]⟩
  | cons c s ih =>
    intro v n v' n' r h hv
    rw [takeNumber] at h
    cases hd : digit c with
    | none =>
      simp only [hd, Option.some.injEq, Prod.mk.injEq] at h
      obtain ⟨rfl, rfl, rfl⟩ := h
      exact ⟨[], [], by simp [hv]⟩
    | some d =>
      simp only [hd] at h
      split at h
      · simp at h
      · next hle =>
        obtain ⟨text, ds, rfl, hds, hval, hn, hmax⟩ := ih _ _ h (by omega)
        have hlen : ds.length = text.length := by simpa using (congrArg List.length hds).symm
        refine ⟨c :: text, d :: ds, rfl, by simp [hd, hds], ?_, by simp only [List.length_cons]; omega, hmax⟩
        rw [hval, List.reverse_cons, Nat.ofDigits_append, Nat.ofDigits_singleton, List.length_reverse,
          hlen, List.length_cons, pow_succ]
        ring

/-- A number that has digits is a numeral. -/
theorem takeNumber_some {s : List UInt8} {v n : ℕ} {r : List UInt8}
    (h : takeNumber digit base max s 0 0 = some (v, n, r)) (hn : n ≠ 0) :
    ∃ text, s = text ++ r ∧ IsNumeral digit base text v ∧ v ≤ max := by
  obtain ⟨text, ds, hs, hds, hval, hlen, hmax⟩ := takeNumber_digits_of s 0 0 h (Nat.zero_le _)
  refine ⟨text, hs, ⟨?_, ds, hds, by rw [hval]; simp⟩, hmax⟩
  rintro rfl
  simp only [List.length_nil] at hlen
  omega

/-- Another limit does not matter if the value stays within it. -/
theorem takeNumber_limit (hb : 0 < base) {max' : ℕ} : ∀ (s : List UInt8) (v n : ℕ) {v' n' : ℕ}
    {r : List UInt8}, takeNumber digit base max s v n = some (v', n', r) → v' ≤ max' →
      takeNumber digit base max' s v n = some (v', n', r) := by
  intro s
  induction s with
  | nil =>
    intro v n v' n' r h _
    exact h
  | cons c s ih =>
    intro v n v' n' r h hle
    rw [takeNumber] at h ⊢
    cases hd : digit c with
    | none =>
      rw [hd] at h
      exact h
    | some d =>
      simp only [hd] at h ⊢
      split at h
      · simp at h
      · have := (takeNumber_spec hb s _ _ h).2.2
        rw [if_neg (by omega)]
        exact ih _ _ h hle

/-- A number ends where the text ends, if no digit follows. -/
theorem takeNumber_append {t : List UInt8} : ∀ (s : List UInt8) (v n : ℕ) {v' n' : ℕ}
    {r : List UInt8}, takeNumber digit base max s v n = some (v', n', r) →
      (r = [] → ∀ c ∈ t.head?, digit c = none) →
      takeNumber digit base max (s ++ t) v n = some (v', n', r ++ t) := by
  intro s
  induction s with
  | nil =>
    intro v n v' n' r h ht
    simp only [takeNumber, Option.some.injEq, Prod.mk.injEq] at h
    obtain ⟨rfl, rfl, rfl⟩ := h
    cases t with
    | nil => rfl
    | cons c t => simp [takeNumber, ht rfl c rfl]
  | cons c s ih =>
    intro v n v' n' r h ht
    rw [takeNumber] at h
    rw [List.cons_append, takeNumber]
    cases hd : digit c with
    | none =>
      simp only [hd, Option.some.injEq, Prod.mk.injEq] at h ⊢
      obtain ⟨rfl, rfl, rfl⟩ := h
      simp
    | some d =>
      simp only [hd] at h ⊢
      split at h
      · simp at h
      · next hle =>
        rw [if_neg hle]
        exact ih _ _ h ht

end

/-! ## Lines and substrings -/

/-- The lines of a text, without the line feeds; a line feed at the end does not start a line. -/
def splitLines : List UInt8 → List (List UInt8)
  | [] => []
  | c :: t =>
    if c = lf then [] :: splitLines t
    else
      match splitLines t with
      | [] => [[c]]
      | l :: ls => (c :: l) :: ls

/-- The first position at which `needle` occurs. -/
def findSub (needle : List UInt8) : List UInt8 → Option ℕ
  | [] => if needle = [] then some 0 else none
  | c :: t => if needle.isPrefixOf (c :: t) then some 0 else (findSub needle t).map (· + 1)

theorem findSub_le {needle s : List UInt8} {i : ℕ} (h : findSub needle s = some i) :
    i + needle.length ≤ s.length := by
  induction s generalizing i with
  | nil =>
    rw [findSub] at h
    split at h
    · next hn => rw [← Option.some.inj h, hn]; simp
    · simp at h
  | cons c s ih =>
    rw [findSub] at h
    split at h
    · next hp =>
      rw [← Option.some.inj h, Nat.zero_add]
      exact (List.isPrefixOf_iff_prefix.mp hp).length_le
    · obtain ⟨j, hj, rfl⟩ := Option.map_eq_some_iff.mp h
      have := ih hj
      simp only [List.length_cons]
      omega

/-- The first occurrence stays the first when the text grows. -/
theorem findSub_append {needle s : List UInt8} {i : ℕ} (hne : needle ≠ []) (t : List UInt8)
    (h : findSub needle s = some i) : findSub needle (s ++ t) = some i := by
  induction s generalizing i with
  | nil => simp [findSub, hne] at h
  | cons c s ih =>
    have hlen := findSub_le h
    have hiff : needle.isPrefixOf (c :: (s ++ t)) = needle.isPrefixOf (c :: s) := by
      rw [Bool.eq_iff_iff, List.isPrefixOf_iff_prefix, List.isPrefixOf_iff_prefix, ← List.cons_append]
      exact ⟨fun hp => List.prefix_of_prefix_length_le hp (List.prefix_append _ _) (by omega),
        fun hp => hp.trans (List.prefix_append _ _)⟩
    rw [findSub] at h
    rw [List.cons_append, findSub, hiff]
    split at h
    · next hp => rw [if_pos hp, h]
    · next hp =>
      obtain ⟨j, hj, rfl⟩ := Option.map_eq_some_iff.mp h
      rw [if_neg hp, ih hj, Option.map_some]

/-- What is found is an occurrence, and there is none before it. -/
theorem findSub_some {needle s : List UInt8} {i : ℕ} (h : findSub needle s = some i) :
    needle <+: s.drop i ∧ ∀ j < i, ¬ needle <+: s.drop j := by
  induction s generalizing i with
  | nil =>
    rw [findSub] at h
    split at h
    · next hn =>
      obtain rfl : 0 = i := Option.some.inj h
      exact ⟨by rw [hn, List.drop_zero], by simp⟩
    · simp at h
  | cons c s ih =>
    rw [findSub] at h
    split at h
    · next hp =>
      obtain rfl : 0 = i := Option.some.inj h
      exact ⟨List.isPrefixOf_iff_prefix.mp hp, by simp⟩
    · next hp =>
      obtain ⟨j, hj, rfl⟩ := Option.map_eq_some_iff.mp h
      obtain ⟨hat, hbefore⟩ := ih hj
      refine ⟨hat, fun k hk => ?_⟩
      cases k with
      | zero => exact fun hpre => hp (List.isPrefixOf_iff_prefix.mpr hpre)
      | succ k => exact hbefore k (by omega)

theorem findSub_none {needle s : List UInt8} (hne : needle ≠ []) (h : findSub needle s = none) (j : ℕ) :
    ¬ needle <+: s.drop j := by
  induction s generalizing j with
  | nil =>
    rw [List.drop_nil, List.prefix_nil]
    exact hne
  | cons c s ih =>
    rw [findSub] at h
    split at h
    · simp at h
    · next hp =>
      cases j with
      | zero => exact fun hpre => hp (List.isPrefixOf_iff_prefix.mpr hpre)
      | succ j => exact ih (Option.map_eq_none_iff.mp h) j

/-- A text without the first byte of the needle is skipped. -/
theorem findSub_skip {c : UInt8} {needle l : List UInt8} (h : c ∉ l) (s : List UInt8) :
    findSub (c :: needle) (l ++ s) = (findSub (c :: needle) s).map (· + l.length) := by
  induction l with
  | nil => simp
  | cons d l ih =>
    simp only [List.mem_cons, not_or] at h
    have hp : (c :: needle).isPrefixOf (d :: (l ++ s)) = false := by
      simp [List.isPrefixOf, h.1]
    rw [List.cons_append, findSub, hp, ih h.2]
    simp only [Bool.false_eq_true, if_false, Option.map_map, List.length_cons]
    congr 1

theorem splitLines_append {l : List UInt8} (h : lf ∉ l) (t : List UInt8) :
    splitLines (l ++ lf :: t) = l :: splitLines t := by
  induction l with
  | nil => simp [splitLines]
  | cons c l ih =>
    simp only [List.mem_cons, not_or] at h
    rw [List.cons_append, splitLines, if_neg (Ne.symm h.1), ih h.2]

theorem splitLines_single {l : List UInt8} (h : lf ∉ l) (hne : l ≠ []) : splitLines l = [l] := by
  induction l with
  | nil => exact absurd rfl hne
  | cons c l ih =>
    simp only [List.mem_cons, not_or] at h
    rw [splitLines, if_neg (Ne.symm h.1)]
    cases l with
    | nil => simp [splitLines]
    | cons d l => rw [ih h.2 (by simp)]

/-- Nothing but blanks. -/
def Blanks (s : List UInt8) : Prop := ∀ c ∈ s, isBlank c = true

/-- Blanks removed from both ends. -/
def trim (s : List UInt8) : List UInt8 := (s.dropWhile isBlank).rdropWhile isBlank

/-- What is left has no blank at either end. -/
theorem trim_append {before value after : List UInt8} (hb : Blanks before)
    (ha : Blanks after) (hhead : ∀ c ∈ value.head?, isBlank c = false)
    (hlast : ∀ c ∈ value.getLast?, isBlank c = false) : trim (before ++ value ++ after) = value := by
  unfold trim
  rw [List.append_assoc, List.dropWhile_append_of_pos hb]
  cases value with
  | nil =>
    rw [List.nil_append, List.dropWhile_eq_nil_iff.mpr ha, List.rdropWhile_nil]
  | cons c value =>
    rw [dropWhile_of_head? (by simpa using hhead), rdropWhile_append_of_all ha,
      rdropWhile_of_getLast? hlast]

theorem trim_spec (s : List UInt8) : ∃ before after, s = before ++ trim s ++ after ∧
    Blanks before ∧ Blanks after ∧
    (∀ c ∈ (trim s).head?, isBlank c = false) ∧ ∀ c ∈ (trim s).getLast?, isBlank c = false := by
  refine ⟨s.takeWhile isBlank, (s.dropWhile isBlank).rtakeWhile isBlank, ?_, ?_, ?_, ?_, ?_⟩
  · rw [List.append_assoc, trim, List.rdropWhile_append_rtakeWhile, List.takeWhile_append_dropWhile]
  · exact fun c hc => List.mem_takeWhile_imp hc
  · exact fun c hc => List.mem_rtakeWhile_imp hc
  · intro c hc
    obtain ⟨t, ht⟩ := List.rdropWhile_prefix (p := isBlank) (l := s.dropWhile isBlank)
    have hc' : c ∈ (s.dropWhile isBlank).head? := by
      rw [← ht]
      rw [Option.mem_def, List.head?_append]
      rw [show List.rdropWhile isBlank (s.dropWhile isBlank) = trim s from rfl, Option.mem_def.mp hc]
      rfl
    exact dropWhile_head?_of hc'
  · intro c hc
    obtain ⟨hne, rfl⟩ := List.mem_getLast?_eq_getLast hc
    exact Bool.not_eq_true _ ▸ List.rdropWhile_last_not (p := isBlank) _ hne

/-- The parts before and after the first colon. -/
def splitColon (line : List UInt8) : Option (List UInt8 × List UInt8) :=
  match line.dropWhile (· ≠ 58) with
  | [] => none
  | _ :: value => some (line.takeWhile (· ≠ 58), value)

theorem splitColon_append {a : List UInt8} (h : 58 ∉ a) (v : List UInt8) :
    splitColon (a ++ 58 :: v) = some (a, v) := by
  have hp : ∀ c ∈ a, decide (c ≠ 58) = true := by
    intro c hc
    simpa using fun heq : c = 58 => h (heq ▸ hc)
  unfold splitColon
  rw [List.dropWhile_append_of_pos hp, List.takeWhile_append_of_pos hp]
  simp

theorem splitColon_some {l a v : List UInt8} (h : splitColon l = some (a, v)) : l = a ++ 58 :: v := by
  unfold splitColon at h
  split at h
  · simp at h
  · next d value hd =>
    simp only [Option.some.injEq, Prod.mk.injEq] at h
    have hd58 : d = 58 := by
      have := dropWhile_head?_of (p := fun c : UInt8 => decide (c ≠ 58)) (l := l) (c := d)
        (by rw [hd]; rfl)
      simpa using this
    have hl := List.takeWhile_append_dropWhile (p := fun c : UInt8 => decide (c ≠ 58)) (l := l)
    rw [hd, hd58, h.1, h.2] at hl
    exact hl.symm

end Orion
