import Orion.Aster.Tokens

/-!
# Attribute lookup (`attr`)

The scanner of `attr` looks behind a name for `=`, and skips to the next blank if there is none; by then
it stands at the next attribute, so that a bare attribute takes its neighbour with it.  `reads` are the
attributes with values that are left: those with an even number of bare ones directly before them, up to
the first quoted value whose inside the scanner enters at a blank.  A lookup is right exactly when the
first attribute of the name is among them, or there is none (`attr_finds_iff`).
-/

namespace Orion.Aster

/-! ## Attribute lists -/

inductive ValueKind where
  | unquoted | single | double
  deriving Repr, DecidableEq

/-- An attribute, bare or with a value, and the blanks behind it. -/
structure Attribute where
  name : List UInt8
  value : Option (ValueKind × List UInt8)
  gap : List UInt8
  deriving Repr, DecidableEq

def ValueKind.quote : ValueKind → List UInt8 → List UInt8
  | .unquoted, v => v
  | .single, v => 39 :: v ++ [39]
  | .double, v => 34 :: v ++ [34]

def Attribute.bytes (a : Attribute) : List UInt8 :=
  match a.value with
  | none => a.name
  | some (k, v) => a.name ++ 61 :: k.quote v

def render (as : List Attribute) : List UInt8 := as.flatMap fun a => a.bytes ++ a.gap

/-- The characters that a value may have. -/
def ValueKind.Allows : ValueKind → List UInt8 → Prop
  | .unquoted, v => v ≠ [] ∧ ∀ c ∈ v, attrPlainChar c = true ∧ c ≠ 39 ∧ c ≠ 34
  | .single, v => ∀ c ∈ v, c ≠ 39 ∧ c ≠ 62
  | .double, v => ∀ c ∈ v, c ≠ 34 ∧ c ≠ 62

/-- An attribute list: names, values and blanks are well formed, and attributes are separated. -/
def Listed : List Attribute → Prop
  | [] => True
  | a :: as =>
    (a.name ≠ [] ∧ ∀ c ∈ a.name, attrNameChar c = true) ∧ (∀ v ∈ a.value, v.1.Allows v.2) ∧
      (∀ c ∈ a.gap, sp c = true) ∧ (as ≠ [] → a.gap ≠ []) ∧ Listed as

/-- The value of the first attribute with a value whose name is `want`. -/
def firstValued (want : List UInt8) (as : List Attribute) : Option (List UInt8) :=
  as.findSome? fun a => if eqn a.name want then a.value.map Prod.snd else none

/-- Everything but the values. -/
def Attribute.shape (a : Attribute) : List UInt8 × Option ValueKind × List UInt8 :=
  (a.name, a.value.map Prod.fst, a.gap)

/-- The text of the value, with its quotes, has no blank, so that the scanner skips it as a whole. -/
def Solid (k : ValueKind) (v : List UInt8) : Prop := ∀ c ∈ k.quote v, (!sp c) = true

instance (k : ValueKind) (v : List UInt8) : Decidable (Solid k v) := List.decidableBAll _ (k.quote v)

/-- The attributes with values that are read: not one with an odd number of bare ones directly before it,
and none from such a one on, if there is a blank in its quotes.  `odd` is the parity of the bare
attributes before the list. -/
def reads : Bool → List Attribute → List Attribute
  | _, [] => []
  | odd, a :: as =>
    match a.value with
    | none => reads (!odd) as
    | some (k, v) =>
      if odd = false then a :: reads false as else if Solid k v then reads false as else []

/-- The text at which the scanner goes on, if it comes to stand inside of quotes. -/
def inside : Bool → List Attribute → Option (List UInt8)
  | _, [] => none
  | odd, a :: as =>
    match a.value with
    | none => inside (!odd) as
    | some (k, v) =>
      if odd = false then inside false as
      else if Solid k v then inside false as
      else some ((k.quote v).dropWhile (!sp ·) ++ (a.gap ++ render as))

/-- Somewhere in the text stands the name with a `=` behind it. -/
def Mentions (want t : List UInt8) : Prop :=
  ∃ front name gap rest, t = front ++ (name ++ (gap ++ 61 :: rest)) ∧ eqn name want = true ∧
    ∀ c ∈ gap, sp c = true

/-- Before `want` is found the scanner comes to stand inside of quotes, and the text from there on has the
name with a `=` behind it. -/
def Strays (want : List UInt8) (as : List Attribute) : Prop :=
  firstValued want (reads false as) = none ∧ ∃ t ∈ inside false as, Mentions want t

/-! ## One turn -/

/-- What stands behind a name and the blanks after it. -/
def attrRest (s : List UInt8) : List UInt8 := ((s.dropWhile sp).dropWhile attrNameChar).dropWhile sp

def attrName (s : List UInt8) : List UInt8 := (s.dropWhile sp).takeWhile attrNameChar

theorem length_attrRest_le (s : List UInt8) : (attrRest s).length ≤ s.length :=
  (length_dropWhile_le _ _).trans ((length_dropWhile_le _ _).trans (length_dropWhile_le _ _))

theorem length_attrValue_le (s : List UInt8) :
    (attrValue s).1.length ≤ s.length ∧ (attrValue s).2.length ≤ s.length := by
  cases s with
  | nil => exact ⟨le_rfl, le_rfl⟩
  | cons q rest =>
    rw [attrValue]
    split
    · have htake := (List.takeWhile_sublist (· ≠ q) (l := rest)).length_le
      have hdrop := length_dropWhile_le (· ≠ q) rest
      simp only [List.length_drop, List.length_cons]
      omega
    · exact ⟨(List.takeWhile_sublist _).length_le, length_dropWhile_le _ _⟩

theorem attrLoop_valued {want s r : List UInt8} (fuel : ℕ) (h : attrRest s = 61 :: r) :
    attrLoop want (fuel + 1) s =
      if eqn (attrName s) want then some (attrValue (r.dropWhile sp)).1
      else attrLoop want fuel (attrValue (r.dropWhile sp)).2 := by
  have hs : s ≠ [] := by
    rintro rfl
    cases h
  unfold attrRest at h
  rw [attrLoop, if_neg hs]
  simp only [h]
  rfl

theorem attrLoop_bare {want s : List UInt8} (fuel : ℕ) (hs : s ≠ []) (h : (attrRest s).head? ≠ some 61) :
    attrLoop want (fuel + 1) s = attrLoop want fuel ((attrRest s).dropWhile (!sp ·)) := by
  unfold attrRest at h ⊢
  rw [attrLoop, if_neg hs]
  simp only
  split
  · next r hr =>
    rw [hr] at h
    exact absurd rfl h
  · rfl

/-- What a turn leaves is shorter. -/
theorem length_skip_lt {s : List UInt8} (hs : s ≠ []) :
    ((attrRest s).dropWhile (!sp ·)).length < s.length := by
  have hle := length_attrRest_le s
  have hstop := List.head?_dropWhile_not sp ((s.dropWhile sp).dropWhile attrNameChar)
  have hpos := List.length_pos_of_ne_nil hs
  rw [show List.dropWhile sp _ = attrRest s from rfl] at hstop
  cases hrest : attrRest s with
  | nil => exact hpos
  | cons c rest =>
    rw [hrest] at hle hstop
    have hc : sp c = false := by simpa using hstop
    have hdrop := length_dropWhile_le (!sp ·) rest
    rw [List.dropWhile_cons_of_pos (by rw [hc]; rfl)]
    rw [List.length_cons] at hle
    omega

/-- **The loop ends by itself**: more turns than the text has characters change nothing. -/
theorem attrLoop_eq_attr (want : List UInt8) : ∀ {fuel : ℕ} {s : List UInt8}, s.length ≤ fuel →
    attrLoop want fuel s = attr s want := by
  have key : ∀ (n : ℕ) {fuel fuel' : ℕ} {s : List UInt8}, s.length ≤ n → s.length ≤ fuel →
      s.length ≤ fuel' → attrLoop want fuel s = attrLoop want fuel' s := by
    intro n
    induction n with
    | zero =>
      intro fuel fuel' s hn _ _
      obtain rfl : s = [] := List.length_eq_zero_iff.mp (by omega)
      cases fuel <;> cases fuel' <;> rfl
    | succ n ih =>
      intro fuel fuel' s hn h h'
      by_cases hs : s = []
      · subst hs
        cases fuel <;> cases fuel' <;> rfl
      have hpos := List.length_pos_of_ne_nil hs
      obtain ⟨k, rfl⟩ : ∃ k, fuel = k + 1 := ⟨fuel - 1, by omega⟩
      obtain ⟨k', rfl⟩ : ∃ k, fuel' = k + 1 := ⟨fuel' - 1, by omega⟩
      by_cases hval : (attrRest s).head? = some 61
      · obtain ⟨r, hr⟩ : ∃ r, attrRest s = 61 :: r := List.head?_eq_some_iff.mp hval
        have hle := length_attrRest_le s
        have hblank := length_dropWhile_le sp r
        have hvalue := (length_attrValue_le (r.dropWhile sp)).2
        rw [hr, List.length_cons] at hle
        rw [attrLoop_valued k hr, attrLoop_valued k' hr, @ih k k' _ (by omega) (by omega) (by omega)]
      · have hlt := length_skip_lt hs
        rw [attrLoop_bare k hs hval, attrLoop_bare k' hs hval, @ih k k' _ (by omega) (by omega) (by omega)]
  intro fuel s h
  exact key s.length le_rfl h le_rfl

theorem attr_nil (want : List UInt8) : attr [] want = none := rfl

theorem attr_valued_eq {s r : List UInt8} (want : List UInt8) (h : attrRest s = 61 :: r) :
    attr s want = if eqn (attrName s) want then some (attrValue (r.dropWhile sp)).1
      else attr (attrValue (r.dropWhile sp)).2 want := by
  have hle := length_attrRest_le s
  have hblank := length_dropWhile_le sp r
  have hvalue := (length_attrValue_le (r.dropWhile sp)).2
  rw [h, List.length_cons] at hle
  rw [← attrLoop_eq_attr want (Nat.le_succ _), attrLoop_valued _ h, attrLoop_eq_attr want (by omega)]

theorem attr_bare_eq {s : List UInt8} (want : List UInt8) (hs : s ≠ []) (h : (attrRest s).head? ≠ some 61) :
    attr s want = attr ((attrRest s).dropWhile (!sp ·)) want := by
  have hlt := length_skip_lt hs
  rw [← attrLoop_eq_attr want (Nat.le_succ _), attrLoop_bare _ hs h, attrLoop_eq_attr want (by omega)]

/-- Blanks in front do not count. -/
theorem attr_blanks {gap : List UInt8} (hgap : ∀ c ∈ gap, sp c = true) (s want : List UInt8) :
    attr (gap ++ s) want = attr s want := by
  have hdrop : (gap ++ s).dropWhile sp = s.dropWhile sp := List.dropWhile_append_of_pos hgap
  have hrest : attrRest (gap ++ s) = attrRest s := by
    rw [attrRest, hdrop]
    rfl
  have hname : attrName (gap ++ s) = attrName s := by
    rw [attrName, hdrop]
    rfl
  by_cases hs : s = []
  · subst hs
    by_cases hnil : gap = []
    · rw [hnil]
      rfl
    · rw [attr_bare_eq want (by simp [hnil]) (by rw [hrest]; simp [attrRest]), hrest]
      rfl
  have hs' : gap ++ s ≠ [] := by simp [hs]
  by_cases hval : (attrRest s).head? = some 61
  · obtain ⟨r, hr⟩ : ∃ r, attrRest s = 61 :: r := List.head?_eq_some_iff.mp hval
    rw [attr_valued_eq want hr, attr_valued_eq want (hrest.trans hr), hname]
  · rw [attr_bare_eq want hs hval, attr_bare_eq want hs' (by rw [hrest]; exact hval), hrest]

/-! ## One attribute -/

theorem nameChar_iff {c : UInt8} : attrNameChar c = true ↔ sp c = false ∧ c ≠ 61 ∧ c ≠ 62 := by
  simp [attrNameChar, and_assoc]

/-- The text behind an attribute is empty or begins with a blank. -/
def Ends (s : List UInt8) : Prop := ∀ c ∈ s.head?, sp c = true

section

variable {name : List UInt8} (hne : name ≠ []) (hname : ∀ c ∈ name, attrNameChar c = true)

include hname

theorem name_solid : ∀ c ∈ name, (!sp c) = true := by
  intro c hc
  rw [(nameChar_iff.mp (hname c hc)).1]
  rfl

include hne

theorem name_dropWhile (s : List UInt8) : (name ++ s).dropWhile sp = name ++ s := by
  obtain ⟨c, name, rfl⟩ := List.exists_cons_of_ne_nil hne
  apply List.dropWhile_cons_of_neg
  rw [(nameChar_iff.mp (hname c (by simp))).1]
  exact Bool.false_ne_true

theorem attrRest_valued (s : List UInt8) : attrRest (name ++ 61 :: s) = 61 :: s := by
  rw [attrRest, name_dropWhile hne hname, List.dropWhile_append_of_pos hname]
  rfl

theorem attrName_valued (s : List UInt8) : attrName (name ++ 61 :: s) = name := by
  rw [attrName, name_dropWhile hne hname, List.takeWhile_append_of_pos hname]
  exact List.append_nil name

/-- Behind a bare name the scanner is at the next attribute. -/
theorem attrRest_bare {gap s : List UInt8} (hgap : ∀ c ∈ gap, sp c = true) (hsep : s ≠ [] → gap ≠ [])
    (hs : ∀ c ∈ s.head?, sp c = false) : attrRest (name ++ (gap ++ s)) = s := by
  have hstop : (gap ++ s).dropWhile attrNameChar = gap ++ s := by
    cases gap with
    | nil =>
      have hs : s = [] := by
        by_contra h
        exact hsep h rfl
      rw [hs]
      rfl
    | cons c gap =>
      apply List.dropWhile_cons_of_neg
      rw [attrNameChar, hgap c (by simp)]
      exact Bool.false_ne_true
  rw [attrRest, name_dropWhile hne hname, List.dropWhile_append_of_pos hname, hstop,
    List.dropWhile_append_of_pos hgap]
  cases s with
  | nil => rfl
  | cons c s => exact List.dropWhile_cons_of_neg (by rw [hs c rfl]; exact Bool.false_ne_true)

/-- **A bare attribute**: the rest of the next one is skipped as far as its first blank. -/
theorem attr_bare {gap s : List UInt8} (hgap : ∀ c ∈ gap, sp c = true) (hsep : s ≠ [] → gap ≠ [])
    (hs : ∀ c ∈ s.head?, sp c = false ∧ c ≠ 61) (want : List UInt8) :
    attr (name ++ (gap ++ s)) want = attr (s.dropWhile (!sp ·)) want := by
  have hrest := attrRest_bare hne hname hgap hsep fun c hc => (hs c hc).1
  rw [attr_bare_eq want (by simp [hne]) ?_, hrest]
  rw [hrest]
  intro hhead
  exact (hs 61 hhead).2 rfl

/-- **An attribute with a value** is read as it is written. -/
theorem attr_valued {k : ValueKind} {v : List UInt8} (hv : k.Allows v) {s : List UInt8} (hs : Ends s)
    (want : List UInt8) : attr (name ++ 61 :: (k.quote v ++ s)) want =
      if eqn name want then some v else attr s want := by
  have hvalue : attrValue ((k.quote v ++ s).dropWhile sp) = (v, s) := by
    cases k with
    | unquoted =>
      obtain ⟨hvne, hv⟩ := hv
      obtain ⟨c, v, rfl⟩ := List.exists_cons_of_ne_nil hvne
      obtain ⟨hplain, hsingle, hdouble⟩ := hv c (by simp)
      have hc : sp c = false := by
        rw [attrPlainChar, Bool.and_eq_true] at hplain
        simpa using hplain.1
      have hall : ∀ b ∈ c :: v, attrPlainChar b = true := fun b hb => (hv b hb).1
      have hend : s.takeWhile attrPlainChar = [] ∧ s.dropWhile attrPlainChar = s := by
        cases s with
        | nil => exact ⟨rfl, rfl⟩
        | cons b s =>
          have hb : ¬ attrPlainChar b = true := by
            rw [attrPlainChar, hs b rfl]
            exact Bool.false_ne_true
          exact ⟨List.takeWhile_cons_of_neg hb, List.dropWhile_cons_of_neg hb⟩
      show attrValue ((c :: (v ++ s)).dropWhile sp) = _
      rw [List.dropWhile_cons_of_neg (by rw [hc]; exact Bool.false_ne_true), attrValue,
        if_neg (not_or.mpr ⟨hsingle, hdouble⟩), ← List.cons_append, List.takeWhile_append_of_pos hall,
        List.dropWhile_append_of_pos hall, hend.1, hend.2, List.append_nil]
    | single =>
      have hall : ∀ c ∈ v, (decide (c ≠ 39)) = true := fun c hc => decide_eq_true (hv c hc).1
      show ((v ++ [39] ++ s).takeWhile (· ≠ 39), ((v ++ [39] ++ s).dropWhile (· ≠ 39)).drop 1) = _
      rw [List.append_assoc, List.takeWhile_append_of_pos hall, List.dropWhile_append_of_pos hall,
        List.singleton_append, List.takeWhile_cons_of_neg (by simp), List.dropWhile_cons_of_neg (by simp),
        List.append_nil]
      rfl
    | double =>
      have hall : ∀ c ∈ v, (decide (c ≠ 34)) = true := fun c hc => decide_eq_true (hv c hc).1
      show ((v ++ [34] ++ s).takeWhile (· ≠ 34), ((v ++ [34] ++ s).dropWhile (· ≠ 34)).drop 1) = _
      rw [List.append_assoc, List.takeWhile_append_of_pos hall, List.dropWhile_append_of_pos hall,
        List.singleton_append, List.takeWhile_cons_of_neg (by simp), List.dropWhile_cons_of_neg (by simp),
        List.append_nil]
      rfl
  rw [attr_valued_eq want (attrRest_valued hne hname _), attrName_valued hne hname, hvalue]

end

/-! ## A list -/

section

variable {a : Attribute} {as : List Attribute} (h : Listed (a :: as))

include h

/-- What follows an attribute is a blank. -/
theorem Listed.ends : Ends (a.gap ++ render as) := by
  obtain ⟨-, -, hgap, hsep, -⟩ := h
  intro c hc
  cases hg : a.gap with
  | nil =>
    have has : as = [] := by
      by_contra hne
      exact hsep hne hg
    rw [hg, has] at hc
    cases hc
  | cons b gap =>
    rw [hg] at hc
    rw [← Option.some.inj hc]
    exact hgap b (by simp [hg])

/-- An attribute begins with a letter of its name. -/
theorem Listed.head : ∀ c ∈ (render (a :: as)).head?, sp c = false ∧ c ≠ 61 := by
  obtain ⟨⟨hne, hname⟩, -⟩ := h
  obtain ⟨b, name, hb⟩ := List.exists_cons_of_ne_nil hne
  have hfirst : (render (a :: as)).head? = some b := by
    rw [render, List.flatMap_cons, Attribute.bytes, hb]
    cases a.value <;> rfl
  intro c hc
  rw [hfirst] at hc
  rw [← Option.some.inj hc]
  obtain ⟨hsp, heq, -⟩ := nameChar_iff.mp (hname b (by simp [hb]))
  exact ⟨hsp, heq⟩

end

theorem Listed.head_of_list {as : List Attribute} (h : Listed as) :
    ∀ c ∈ (render as).head?, sp c = false ∧ c ≠ 61 := by
  cases as with
  | nil =>
    intro c hc
    cases hc
  | cons a as => exact h.head

theorem render_cons (a : Attribute) (as : List Attribute) :
    render (a :: as) = a.bytes ++ (a.gap ++ render as) := by
  rw [render, List.flatMap_cons, List.append_assoc]
  rfl

/-- **An attribute without blanks is skipped as a whole.** -/
theorem skip_solid {s rest : List UInt8} (hs : ∀ c ∈ s, (!sp c) = true) (hrest : Ends rest) :
    (s ++ rest).dropWhile (!sp ·) = rest := by
  rw [List.dropWhile_append_of_pos hs]
  cases rest with
  | nil => rfl
  | cons c rest => exact List.dropWhile_cons_of_neg (by rw [hrest c rfl]; simp)

/-- The scanner at a list, after an even or an odd number of bare attributes. -/
def scan (odd : Bool) (s want : List UInt8) : Option (List UInt8) :=
  if odd then attr (s.dropWhile (!sp ·)) want else attr s want

section

variable {a : Attribute} {as : List Attribute} (h : Listed (a :: as)) (want : List UInt8)

include h

theorem scan_bare (hbare : a.value = none) (odd : Bool) :
    scan odd (render (a :: as)) want = scan (!odd) (render as) want := by
  have hends := h.ends
  obtain ⟨⟨hne, hname⟩, -, hgap, hsep, has⟩ := h
  have hbytes : a.bytes = a.name := by rw [Attribute.bytes, hbare]
  have hsep' : render as ≠ [] → a.gap ≠ [] := by
    intro hne
    apply hsep
    rintro rfl
    exact hne rfl
  rw [render_cons, hbytes]
  cases odd with
  | false => exact attr_bare hne hname hgap hsep' has.head_of_list want
  | true =>
    show attr ((a.name ++ (a.gap ++ render as)).dropWhile (!sp ·)) want = attr (render as) want
    rw [skip_solid (name_solid hname) hends, attr_blanks hgap]

theorem scan_valued {k : ValueKind} {v : List UInt8} (hval : a.value = some (k, v)) :
    scan false (render (a :: as)) want = if eqn a.name want then some v else scan false (render as) want := by
  have hends := h.ends
  obtain ⟨⟨hne, hname⟩, hallows, hgap, -, -⟩ := h
  have hbytes : a.bytes = a.name ++ 61 :: k.quote v := by rw [Attribute.bytes, hval]
  rw [render_cons, hbytes, List.append_assoc, List.cons_append]
  show attr _ want = _
  rw [attr_valued hne hname (hallows _ hval) hends, attr_blanks hgap]
  rfl

/-- The text of an attribute up to its value is skipped, and the value as far as its first blank. -/
theorem scan_odd {k : ValueKind} {v : List UInt8} (hval : a.value = some (k, v)) :
    scan true (render (a :: as)) want = attr ((k.quote v ++ (a.gap ++ render as)).dropWhile (!sp ·)) want := by
  obtain ⟨⟨hne, hname⟩, -⟩ := h
  have hbytes : a.bytes = (a.name ++ [61]) ++ k.quote v := by
    rw [Attribute.bytes, hval, List.append_assoc]
    rfl
  have hfront : ∀ c ∈ a.name ++ [61], (!sp c) = true := by
    intro c hc
    rcases List.mem_append.mp hc with hc | hc
    · exact name_solid hname c hc
    · rw [List.mem_singleton.mp hc]
      rfl
  rw [render_cons, hbytes, List.append_assoc]
  show attr (List.dropWhile _ _) want = _
  rw [List.dropWhile_append_of_pos hfront]

theorem scan_skipped {k : ValueKind} {v : List UInt8} (hval : a.value = some (k, v)) (hsolid : Solid k v) :
    scan true (render (a :: as)) want = scan false (render as) want := by
  have hends := h.ends
  rw [scan_odd h want hval, skip_solid hsolid hends, attr_blanks h.2.2.1]
  rfl

theorem scan_entered {k : ValueKind} {v : List UInt8} (hval : a.value = some (k, v)) (hsolid : ¬ Solid k v) :
    scan true (render (a :: as)) want =
      attr ((k.quote v).dropWhile (!sp ·) ++ (a.gap ++ render as)) want := by
  have hblank : (k.quote v).dropWhile (!sp ·) ≠ [] := by
    intro hnil
    exact hsolid (List.dropWhile_eq_nil_iff.mp hnil)
  rw [scan_odd h want hval, List.dropWhile_append, if_neg (by simpa using hblank)]

end

theorem firstValued_cons (want : List UInt8) (a : Attribute) (as : List Attribute) :
    firstValued want (a :: as) =
      ((if eqn a.name want then a.value.map Prod.snd else none).or (firstValued want as)) := by
  rw [firstValued, List.findSome?_cons]
  cases (if eqn a.name want then a.value.map Prod.snd else none) <;> rfl

/-- **What the scanner finds**: the first attribute of the name among those that it reads, or else what
it finds inside of the quotes. -/
theorem scan_eq (want : List UInt8) : ∀ {as : List Attribute} {odd : Bool}, Listed as →
    scan odd (render as) want =
      (firstValued want (reads odd as)).or ((inside odd as).bind fun t => attr t want) := by
  intro as
  induction as with
  | nil =>
    intro odd _
    cases odd <;> rfl
  | cons a as ih =>
    intro odd hlist
    have has : Listed as := hlist.2.2.2.2
    cases hval : a.value with
    | none =>
      simp only [reads, inside, hval]
      rw [scan_bare hlist want hval, ih has]
    | some kv =>
      obtain ⟨k, v⟩ := kv
      simp only [reads, inside, hval]
      cases odd with
      | false =>
        rw [if_pos rfl, if_pos rfl, scan_valued hlist want hval, firstValued_cons, hval, ih has]
        cases eqn a.name want <;> rfl
      | true =>
        have hodd : ¬ true = false := by decide
        rw [if_neg hodd, if_neg hodd]
        by_cases hsolid : Solid k v
        · rw [if_pos hsolid, if_pos hsolid, scan_skipped hlist want hval hsolid, ih has]
        · rw [if_neg hsolid, if_neg hsolid, scan_entered hlist want hval hsolid]
          rfl

/-! ## Text without the name -/

theorem Mentions.of_suffix {want s t : List UInt8} (h : Mentions want s) (hs : s <:+ t) :
    Mentions want t := by
  obtain ⟨front, name, gap, rest, rfl, hname, hgap⟩ := h
  obtain ⟨before, rfl⟩ := hs
  exact ⟨before ++ front, name, gap, rest, List.append_assoc _ _ _ |>.symm, hname, hgap⟩

theorem attrRest_suffix (s : List UInt8) : attrRest s <:+ s :=
  (List.dropWhile_suffix _).trans ((List.dropWhile_suffix _).trans (List.dropWhile_suffix _))

theorem attrValue_suffix (s : List UInt8) : (attrValue s).2 <:+ s := by
  cases s with
  | nil => exact List.suffix_rfl
  | cons q rest =>
    rw [attrValue]
    split
    · exact (List.drop_suffix _ _).trans ((List.dropWhile_suffix _).trans (List.suffix_cons q rest))
    · exact List.dropWhile_suffix _

/-- A name that is read stands in the text with its `=`. -/
theorem mentions_of_attrRest {want s r : List UInt8} (h : attrRest s = 61 :: r)
    (hname : eqn (attrName s) want = true) : Mentions want s := by
  refine ⟨s.takeWhile sp, attrName s, ((s.dropWhile sp).dropWhile attrNameChar).takeWhile sp, r, ?_, hname,
    fun c hc => List.mem_takeWhile_imp hc⟩
  rw [← h, attrRest, List.takeWhile_append_dropWhile, attrName, List.takeWhile_append_dropWhile,
    List.takeWhile_append_dropWhile]

/-- **Text that does not have the name with a `=` yields nothing.** -/
theorem attr_eq_none {want : List UInt8} : ∀ {s : List UInt8}, ¬ Mentions want s → attr s want = none := by
  intro s
  induction hn : s.length using Nat.strong_induction_on generalizing s with
  | _ n ih =>
    intro hno
    by_cases hs : s = []
    · rw [hs, attr_nil]
    by_cases hval : (attrRest s).head? = some 61
    · obtain ⟨r, hr⟩ : ∃ r, attrRest s = 61 :: r := List.head?_eq_some_iff.mp hval
      have hrest := attrRest_suffix s
      have hsuffix : (attrValue (r.dropWhile sp)).2 <:+ s :=
        ((attrValue_suffix _).trans (List.dropWhile_suffix _)).trans
          ((List.suffix_cons 61 r).trans (hr ▸ hrest))
      have hlt : (attrValue (r.dropWhile sp)).2.length < s.length := by
        have hle := hrest.length_le
        have hvalue := ((attrValue_suffix _).trans (List.dropWhile_suffix sp (l := r))).length_le
        rw [hr, List.length_cons] at hle
        omega
      have hname : eqn (attrName s) want = false := by
        by_contra hname
        exact hno (mentions_of_attrRest hr (by simpa using hname))
      rw [attr_valued_eq want hr, hname, if_neg Bool.false_ne_true]
      exact ih _ (hn ▸ hlt) rfl fun hin => hno (hin.of_suffix hsuffix)
    · have hlt := length_skip_lt hs
      rw [attr_bare_eq want hs hval]
      refine ih _ (hn ▸ hlt) rfl fun hin => hno (hin.of_suffix ?_)
      exact (List.dropWhile_suffix _).trans (attrRest_suffix s)

/-! ## Inside of quotes -/

/-- The same attribute with another value, if it has one. -/
def Attribute.withValue (a : Attribute) (v : List UInt8) : Attribute :=
  { a with value := a.value.map fun e => (e.1, v) }

theorem withValue_shape (a : Attribute) (v : List UInt8) : (a.withValue v).shape = a.shape := by
  rw [Attribute.shape, Attribute.withValue, Attribute.shape, Option.map_map]
  rfl

theorem Listed.withValue {a : Attribute} {as : List Attribute} (h : Listed (a :: as)) {v : List UInt8}
    (hv : ∀ e ∈ a.value, e.1.Allows v) : Listed (a.withValue v :: as) := by
  obtain ⟨hname, -, hgap, hsep, has⟩ := h
  refine ⟨hname, ?_, hgap, hsep, has⟩
  intro e he
  obtain ⟨e', he', rfl⟩ := Option.map_eq_some_iff.mp he
  exact hv e' he'

theorem Listed.withTail {a : Attribute} {as bs : List Attribute} (h : Listed (a :: as)) (hb : Listed bs)
    (hshape : bs.map Attribute.shape = as.map Attribute.shape) : Listed (a :: bs) := by
  obtain ⟨hname, hvalue, hgap, hsep, -⟩ := h
  refine ⟨hname, hvalue, hgap, fun hbs => hsep ?_, hb⟩
  rintro rfl
  exact hbs (List.map_eq_nil_iff.mp hshape)

/-- A quoted value with an attribute `want` behind a blank. -/
def bait (want : List UInt8) (n : ℕ) : List UInt8 := 32 :: (want ++ 61 :: List.replicate n 120)

section

variable {want : List UInt8} (hne : want ≠ [])
  (hwant : ∀ c ∈ want, attrNameChar c = true ∧ c ≠ 39 ∧ c ≠ 34)

include hwant

theorem allows_bait {k : ValueKind} (hk : k ≠ .unquoted) (n : ℕ) : k.Allows (bait want n) := by
  have hchars : ∀ c ∈ bait want n, c ≠ 39 ∧ c ≠ 34 ∧ c ≠ 62 := by
    intro c hc
    rcases List.mem_cons.mp hc with rfl | hc
    · decide
    rcases List.mem_append.mp hc with hc | hc
    · obtain ⟨hname, h39, h34⟩ := hwant c hc
      exact ⟨h39, h34, (nameChar_iff.mp hname).2.2⟩
    rcases List.mem_cons.mp hc with rfl | hc
    · decide
    · rw [List.eq_of_mem_replicate hc]
      decide
  cases k with
  | unquoted => exact absurd rfl hk
  | single => exact fun c hc => ⟨(hchars c hc).1, (hchars c hc).2.2⟩
  | double => exact fun c hc => ⟨(hchars c hc).2.1, (hchars c hc).2.2⟩

include hne

/-- What follows the blank is taken for an attribute, and the quote behind it for a part of its value. -/
theorem attr_bait {k : ValueKind} (hk : k ≠ .unquoted) (n : ℕ) {s : List UInt8} (hs : Ends s) :
    ∃ q, attr ((k.quote (bait want (n + 1))).dropWhile (!sp ·) ++ s) want =
      some (List.replicate (n + 1) 120 ++ [q]) := by
  obtain ⟨q, hq, hquote⟩ : ∃ q, attrPlainChar q = true ∧
      (k.quote (bait want (n + 1))).dropWhile (!sp ·) =
        32 :: (want ++ 61 :: (List.replicate (n + 1) 120 ++ [q])) := by
    cases k with
    | unquoted => exact absurd rfl hk
    | single =>
      refine ⟨39, rfl, ?_⟩
      show List.dropWhile _ (39 :: 32 :: (want ++ 61 :: List.replicate (n + 1) 120) ++ [39]) = _
      rw [List.cons_append, List.cons_append, List.append_assoc, List.cons_append]
      rfl
    | double =>
      refine ⟨34, rfl, ?_⟩
      show List.dropWhile _ (34 :: 32 :: (want ++ 61 :: List.replicate (n + 1) 120) ++ [34]) = _
      rw [List.cons_append, List.cons_append, List.append_assoc, List.cons_append]
      rfl
  have hname : ∀ c ∈ want, attrNameChar c = true := fun c hc => (hwant c hc).1
  have hself : eqn want want = true := decide_eq_true rfl
  have hplain : ∀ c ∈ List.replicate (n + 1) (120 : UInt8) ++ [q], attrPlainChar c = true := by
    intro c hc
    rcases List.mem_append.mp hc with hc | hc
    · rw [List.eq_of_mem_replicate hc]
      rfl
    · rw [List.mem_singleton.mp hc]
      exact hq
  have hstop : s.takeWhile attrPlainChar = [] := by
    cases s with
    | nil => rfl
    | cons c s =>
      apply List.takeWhile_cons_of_neg
      rw [attrPlainChar, hs c rfl]
      exact Bool.false_ne_true
  refine ⟨q, ?_⟩
  rw [hquote, List.cons_append, ← List.singleton_append, attr_blanks (by simp; rfl), List.append_assoc,
    List.cons_append, attr_valued_eq want (attrRest_valued hne hname _), attrName_valued hne hname, hself,
    if_pos rfl, List.append_assoc]
  have hvalue : attrValue ((List.replicate (n + 1) 120 ++ ([q] ++ s)).dropWhile sp) =
      ((List.replicate (n + 1) 120 ++ ([q] ++ s)).takeWhile attrPlainChar,
        (List.replicate (n + 1) 120 ++ ([q] ++ s)).dropWhile attrPlainChar) := rfl
  rw [hvalue, ← List.append_assoc, List.takeWhile_append_of_pos hplain, hstop, List.append_nil]

/-- With other values in the list, the scanner finds one of more than `n` bytes, which is the wrong one. -/
def Baited (want : List UInt8) (odd : Bool) (as : List Attribute) (n : ℕ) : Prop :=
  ∃ bs w, bs.map Attribute.shape = as.map Attribute.shape ∧ Listed bs ∧
    scan odd (render bs) want = some w ∧ n < w.length ∧ firstValued want bs ≠ some w

omit hne hwant in
/-- An attribute that the scanner passes over, with no value of the name that is longer. -/
theorem Baited.cons {a : Attribute} {as : List Attribute} {odd odd' : Bool} {m n : ℕ}
    (h : Baited want odd' as m) (hn : n ≤ m) (hlist : Listed (a :: as))
    (hscan : ∀ bs, Listed (a :: bs) → scan odd (render (a :: bs)) want = scan odd' (render bs) want)
    (hhead : ∀ e ∈ a.value, eqn a.name want = true → e.2.length ≤ m) : Baited want odd (a :: as) n := by
  obtain ⟨bs, w, hshape, hbs, hfound, hlen, hneq⟩ := h
  have hlist' := hlist.withTail hbs hshape
  refine ⟨a :: bs, w, by rw [List.map_cons, List.map_cons, hshape], hlist', (hscan bs hlist').trans hfound,
    by omega, ?_⟩
  rw [firstValued_cons]
  cases hname : eqn a.name want with
  | false => simpa using hneq
  | true =>
    cases hval : a.value with
    | none => simpa using hneq
    | some e =>
      intro heq
      obtain rfl : e.2 = w := Option.some.inj heq
      have := hhead e hval hname
      omega

/-- The bait goes into the quotes that the scanner gets into. -/
theorem baited_entered {a : Attribute} {as : List Attribute} {k : ValueKind} {v : List UInt8}
    (hlist : Listed (a :: as)) (hval : a.value = some (k, v)) (hsolid : ¬ Solid k v) (n : ℕ) :
    Baited want true (a :: as) n := by
  have hk : k ≠ .unquoted := by
    rintro rfl
    refine hsolid fun c hc => ?_
    have hplain := ((hlist.2.1 _ hval).2 c hc).1
    rw [attrPlainChar, Bool.and_eq_true] at hplain
    exact hplain.1
  -- the value that is found is longer than the expected one
  obtain ⟨m, hm⟩ : ∃ m, m = max n ((firstValued want as).getD []).length := ⟨_, rfl⟩
  have hlist' : Listed (a.withValue (bait want (m + 1)) :: as) := by
    refine hlist.withValue fun e he => ?_
    rw [hval] at he
    rw [← Option.some.inj he]
    exact allows_bait hwant hk _
  have hval' : (a.withValue (bait want (m + 1))).value = some (k, bait want (m + 1)) := by
    rw [Attribute.withValue, hval]
    rfl
  have hblank : ¬ Solid k (bait want (m + 1)) := by
    intro hall
    have hmem : (32 : UInt8) ∈ k.quote (bait want (m + 1)) := by
      cases k <;> simp [ValueKind.quote, bait]
    exact absurd (hall 32 hmem) (by decide)
  obtain ⟨q, hq⟩ := attr_bait hne hwant hk m hlist.ends
  refine ⟨_, _, by rw [List.map_cons, List.map_cons, withValue_shape], hlist',
    (scan_entered hlist' want hval' hblank).trans hq, ?_, ?_⟩
  · rw [List.length_append, List.length_replicate, List.length_singleton]
    omega
  · rw [firstValued_cons, hval']
    cases eqn (a.withValue (bait want (m + 1))).name want with
    | true =>
      intro heq
      have hhead := congrArg List.head? (Option.some.inj heq)
      exact absurd hhead (by simp [bait, List.replicate_succ])
    | false =>
      intro heq
      have hlen := congrArg (fun o => (o.getD ([] : List UInt8)).length)
        ((Option.none_or ..).symm.trans heq)
      simp only [Option.getD_some, List.length_append, List.length_replicate,
        List.length_singleton] at hlen
      omega

/-- **Once the scanner is inside of quotes, no name is safe**: with another text in them it is read there. -/
theorem scan_baited : ∀ {as : List Attribute} {odd : Bool} (n : ℕ), Listed as →
    firstValued want (reads odd as) = none → (inside odd as).isSome → Baited want odd as n := by
  intro as
  induction as with
  | nil =>
    intro odd n _ _ hin
    exact absurd hin (by simp [inside])
  | cons a as ih =>
    intro odd n hlist hfirst hin
    have has : Listed as := hlist.2.2.2.2
    cases hval : a.value with
    | none =>
      simp only [reads, inside, hval] at hfirst hin
      refine (ih n has hfirst hin).cons le_rfl hlist (fun bs hbs => scan_bare hbs want hval odd) ?_
      intro e he
      rw [hval] at he
      cases he
    | some kv =>
      obtain ⟨k, v⟩ := kv
      simp only [reads, inside, hval] at hfirst hin
      cases odd with
      | false =>
        rw [if_pos rfl, firstValued_cons, hval] at hfirst
        rw [if_pos rfl] at hin
        obtain ⟨hhead, hrest⟩ := Option.or_eq_none_iff.mp hfirst
        have hname : eqn a.name want = false := by
          cases hname : eqn a.name want with
          | false => rfl
          | true =>
            rw [hname] at hhead
            cases hhead
        refine (ih n has hrest hin).cons le_rfl hlist (fun bs hbs => ?_) fun _ _ htrue => ?_
        · rw [scan_valued hbs want hval, hname, if_neg Bool.false_ne_true]
        · exact absurd (hname.symm.trans htrue) Bool.false_ne_true
      | true =>
        have hodd : ¬ true = false := by decide
        rw [if_neg hodd] at hfirst hin
        by_cases hsolid : Solid k v
        · rw [if_pos hsolid] at hfirst hin
          refine (ih (max n v.length) has hfirst hin).cons (le_max_left ..) hlist
            (fun bs hbs => scan_skipped hbs want hval hsolid) ?_
          rintro e he -
          rw [hval] at he
          rw [← Option.some.inj he]
          exact le_max_right ..
        · exact baited_entered hne hwant hlist hval hsolid n

end

/-- **Attribute lookup, call by call.**  As long as the scanner does not read the name inside of quotes,
a lookup is right exactly when the first attribute of the name that is read has the value of the first
one in the list, or there is none.  Where it does, another text in these quotes makes it wrong.  And it
terminates on every text. -/
theorem attr_finds_iff {lead : List UInt8} {as : List Attribute} (hlead : ∀ c ∈ lead, sp c = true)
    (has : Listed as) (want : List UInt8) :
    (¬ Strays want as → (attr (lead ++ render as) want = firstValued want as ↔
      firstValued want (reads false as) = firstValued want as)) ∧
    (Strays want as → want ≠ [] → (∀ c ∈ want, attrNameChar c = true ∧ c ≠ 39 ∧ c ≠ 34) →
      ∃ bs, bs.map Attribute.shape = as.map Attribute.shape ∧ Listed bs ∧
        attr (lead ++ render bs) want ≠ firstValued want bs) ∧
    ∀ (s : List UInt8) (fuel : ℕ), s.length ≤ fuel → attrLoop want fuel s = attr s want := by
  refine ⟨fun hstays => ?_, fun hstrays hne hwant => ?_, fun s fuel h => attrLoop_eq_attr want h⟩
  · have hfound : attr (lead ++ render as) want = firstValued want (reads false as) := by
      rw [attr_blanks hlead, show attr (render as) want = scan false (render as) want from rfl, scan_eq want has]
      cases hfirst : firstValued want (reads false as) with
      | some v => rfl
      | none =>
        cases hin : inside false as with
        | none => rfl
        | some t => exact attr_eq_none fun hment => hstays ⟨hfirst, t, hin, hment⟩
    rw [hfound]
  · obtain ⟨hfirst, t, ht, -⟩ := hstrays
    obtain ⟨bs, w, hshape, hbs, hscan, -, hneq⟩ := scan_baited hne hwant 0 has hfirst
      (Option.isSome_iff_exists.mpr ⟨t, ht⟩)
    refine ⟨bs, hshape, hbs, ?_⟩
    rw [attr_blanks hlead]
    exact fun heq => hneq (heq.symm.trans hscan)

/-- The attributes of `<a href="x">`, and of `<a download href="x">`. -/
def hrefList : List Attribute := [⟨ascii "href", some (.double, ascii "x"), []⟩]

def downloadList : List Attribute := ⟨ascii "download", none, [32]⟩ :: hrefList

theorem hrefList_listed : Listed hrefList := by
  refine ⟨⟨by decide, List.all_eq_true.mp (by decide)⟩, ?_, List.all_eq_true.mp (by decide), by simp, trivial⟩
  intro v hv
  rw [← Option.some.inj hv]
  show ∀ c ∈ ([120] : List UInt8), c ≠ 34 ∧ c ≠ 62
  exact List.forall_mem_singleton.mpr (by decide)

theorem downloadList_listed : Listed downloadList :=
  ⟨⟨by decide, List.all_eq_true.mp (by decide)⟩, (fun _ hv => by cases hv), List.all_eq_true.mp (by decide),
    by simp, hrefList_listed⟩

/-- The attributes of `<a id="q" download href="x">`. -/
def idList : List Attribute := ⟨ascii "id", some (.double, ascii "q"), [32]⟩ :: downloadList

theorem idList_listed : Listed idList := by
  refine ⟨⟨by decide, List.all_eq_true.mp (by decide)⟩, ?_, List.all_eq_true.mp (by decide), by simp,
    downloadList_listed⟩
  intro v hv
  rw [← Option.some.inj hv]
  show ∀ c ∈ ([113] : List UInt8), c ≠ 34 ∧ c ≠ 62
  exact List.forall_mem_singleton.mpr (by decide)

/-- The id before the bare attribute is found, and a class that is not there is not; the link behind it
is lost. -/
theorem attr_finds_iff_id :
    attr ([32] ++ render idList) (ascii "id") = some (ascii "q") ∧
      attr ([32] ++ render idList) (ascii "class") = none ∧
      attr ([32] ++ render idList) (ascii "href") ≠ some (ascii "x") := by
  have hlead : ∀ c ∈ ([32] : List UInt8), sp c = true := List.all_eq_true.mp (by decide)
  have hstays : ∀ want, ¬ Strays want idList := by
    rintro want ⟨-, t, ht, -⟩
    have hin : inside false idList = none := by decide
    rw [hin] at ht
    cases ht
  have hid : firstValued (ascii "id") idList = some (ascii "q") := by decide
  have hclass : firstValued (ascii "class") idList = none := by decide
  have hhref : firstValued (ascii "href") idList = some (ascii "x") := by decide
  refine ⟨?_, ?_, ?_⟩
  · exact hid ▸ ((attr_finds_iff hlead idList_listed _).1 (hstays _)).mpr (by decide)
  · exact hclass ▸ ((attr_finds_iff hlead idList_listed _).1 (hstays _)).mpr (by decide)
  · exact hhref ▸ mt ((attr_finds_iff hlead idList_listed _).1 (hstays _)).mp (by decide)

/-- The link behind a bare attribute is not found. -/
theorem attr_misses_href : ¬ ∀ (lead : List UInt8) (as : List Attribute), (∀ c ∈ lead, sp c = true) →
    Listed as → ∀ want, attr (lead ++ render as) want = firstValued want as := by
  intro hall
  have hfound := hall [32] downloadList (List.all_eq_true.mp (by decide)) downloadList_listed (ascii "href")
  have hnone : attr ([32] ++ render downloadList) (ascii "href") = none := by decide
  have hsome : firstValued (ascii "href") downloadList = some (ascii "x") := by decide
  rw [hnone, hsome] at hfound
  cases hfound

end Orion.Aster
