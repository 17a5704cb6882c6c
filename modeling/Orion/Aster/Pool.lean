import Orion.Aster.Walk

/-!
# The text pool

`store` cuts a string that does not fit the rest of the pool, and refuses one when the pool is full;
the slice is recorded with the length that was asked for.  So a slice holds its string exactly when
the string fitted (`held_storeSlice_iff`), and the slices of a page hold their strings exactly when
all texts of the page fit, one after the other (`textBacked_iff`).

The texts of a page depend on its markup alone (`pageTexts`): where the parser goes does not depend
on the pool.
-/

namespace Orion.Aster

/-! ## Slices -/

/-- The slice lies in the stored text and has the bytes that were passed to `store` for it. -/
def Held (d : Document) (sl : Slice) : Prop :=
  sl.off + sl.len ≤ d.text.length ∧ d.text.length ≤ asterTextCap - 1 ∧
    d.bytes sl.toSpan = sl.asked

def Node.slices (n : Node) : List Slice := [n.text, n.href, n.src, n.id, n.cls]

/-- Every text slice of a document is backed by stored text. -/
def TextBacked (d : Document) : Prop :=
  (∀ n ∈ d.nodes, ∀ sl ∈ n.slices, sl.len ≠ 0 → Held d sl) ∧ ∀ r ∈ d.css, Held d r.selector

theorem textAt_of_lt {d : Document} {i : ℕ} (h : i < d.text.length) :
    d.textAt i = d.text.getD i 0 := by
  rw [Document.textAt, if_pos h]

/-- The bytes of a span of stored text. -/
theorem bytes_eq {d : Document} {s : Span} (h : s.off + s.len ≤ d.text.length) :
    d.bytes s = (d.text.drop s.off).take s.len := by
  apply List.ext_getElem
  · simp only [Document.bytes, List.length_map, List.length_range, List.length_take,
      List.length_drop]
    omega
  · intro i hi hi'
    have hlt : i < s.len := by simpa [Document.bytes] using hi
    simp only [Document.bytes, List.getElem_map, List.getElem_range, List.getElem_take,
      List.getElem_drop]
    rw [textAt_of_lt (by omega), List.getD_eq_getElem?_getD, List.getElem?_eq_getElem (by omega)]
    rfl

theorem length_bytes (d : Document) (s : Span) : (d.bytes s).length = s.len := by
  simp [Document.bytes]

/-! ## Requests -/

/-- The pool after a request. -/
def poolAfter (pool r : List UInt8) : List UInt8 :=
  if r = [] ∨ pool.length ≥ asterTextCap - 1 then pool
  else pool ++ r.take (asterTextCap - 1 - pool.length)

/-- The request fits into the pool; or its length is 0 as a 16-bit number, so that no slice is
recorded; or the pool is full and happens to begin with it. -/
def Fits (pool r : List UInt8) : Prop :=
  r.length % 2 ^ 16 = 0 ∨ pool.length + r.length ≤ asterTextCap - 1 ∨
    (asterTextCap - 1 ≤ pool.length ∧ r <+: pool)

/-- Requests fit, one after the other. -/
def AllFit : List UInt8 → List (List UInt8) → Prop
  | _, [] => True
  | pool, r :: rs => Fits pool r ∧ AllFit (poolAfter pool r) rs

def poolAll (pool : List UInt8) (rs : List (List UInt8)) : List UInt8 := rs.foldl poolAfter pool

theorem prefix_poolAfter (pool r : List UInt8) : pool <+: poolAfter pool r := by
  unfold poolAfter
  split
  · exact List.prefix_rfl
  · exact List.prefix_append _ _

theorem prefix_poolAll (rs : List (List UInt8)) : ∀ pool, pool <+: poolAll pool rs := by
  induction rs with
  | nil => exact fun _ => List.prefix_rfl
  | cons r rs ih => exact fun pool => (prefix_poolAfter pool r).trans (ih _)

theorem length_poolAfter_le {pool : List UInt8} (h : pool.length ≤ asterTextCap - 1)
    (r : List UInt8) : (poolAfter pool r).length ≤ asterTextCap - 1 := by
  unfold poolAfter
  split
  · exact h
  · simp only [List.length_append, List.length_take]
    omega

theorem length_poolAll_le (rs : List (List UInt8)) : ∀ {pool : List UInt8},
    pool.length ≤ asterTextCap - 1 → (poolAll pool rs).length ≤ asterTextCap - 1 := by
  induction rs with
  | nil => exact fun h => h
  | cons r rs ih => exact fun h => ih (length_poolAfter_le h r)

theorem poolAll_append (pool : List UInt8) (rs rs' : List (List UInt8)) :
    poolAll pool (rs ++ rs') = poolAll (poolAll pool rs) rs' :=
  List.foldl_append

theorem allFit_append (rs rs' : List (List UInt8)) : ∀ pool,
    AllFit pool (rs ++ rs') ↔ AllFit pool rs ∧ AllFit (poolAll pool rs) rs' := by
  induction rs with
  | nil => simp [AllFit, poolAll]
  | cons r rs ih =>
    intro pool
    rw [List.cons_append, AllFit, AllFit, ih, and_assoc]
    rfl

/-- `F` comes after a pool: its text begins with it, and the capacity holds. -/
def After (pool : List UInt8) (F : Document) : Prop :=
  pool <+: F.text ∧ F.text.length ≤ asterTextCap - 1

theorem store_text (d : Document) (r : List UInt8) : (store d r).2.text = poolAfter d.text r := by
  unfold store poolAfter
  split <;> rfl

/-- **A slice holds its string exactly when the string fitted.** -/
theorem held_storeSlice_iff {d F : Document} {r : List UInt8} (h : After (poolAfter d.text r) F) :
    ((storeSlice d r).1.len ≠ 0 → Held F (storeSlice d r).1) ↔ Fits d.text r := by
  obtain ⟨hstart, hcap⟩ := h
  have hcapv : asterTextCap - 1 = 24575 := rfl
  rw [hcapv] at hcap
  have hlen : (storeSlice d r).1.len = r.length % 2 ^ 16 := rfl
  have hasked : (storeSlice d r).1.asked = r := rfl
  by_cases hzero : r.length % 2 ^ 16 = 0
  · exact ⟨fun _ => .inl hzero, fun _ hne => absurd hzero hne⟩
  have hr : r ≠ [] := by
    rintro rfl
    simp at hzero
  have hfits : Fits d.text r ↔
      d.text.length + r.length ≤ 24575 ∨ (24575 ≤ d.text.length ∧ r <+: d.text) := by
    unfold Fits
    rw [hcapv]
    exact or_iff_right hzero
  have hpos : 0 < r.length := List.length_pos_of_ne_nil hr
  rw [hfits, hlen]
  simp only [ne_eq, hzero, not_false_eq_true, true_implies]
  unfold Held
  rw [hlen, hasked, hcapv]
  by_cases hfull : d.text.length ≥ 24575
  · -- the pool is full and stays as it is
    have hstored : poolAfter d.text r = d.text := by
      rw [poolAfter, if_pos (.inr hfull)]
    rw [hstored] at hstart
    have hsame : F.text = d.text :=
      (hstart.eq_of_length (by have := hstart.length_le; omega)).symm
    have hoff : (storeSlice d r).1.off = 0 := by
      show (store d r).1 = 0
      rw [store, if_pos (.inr hfull)]
    rw [hoff, hsame, Nat.zero_add]
    constructor
    · rintro ⟨hle, -, hbytes⟩
      refine .inr ⟨hfull, ?_⟩
      rw [bytes_eq (by rw [hsame, hoff, hlen]; omega), hoff, hlen, hsame] at hbytes
      rw [← hbytes]
      exact List.take_prefix _ _
    · rintro (hle | ⟨-, hpre⟩)
      · omega
      · have hshort := hpre.length_le
        have hmod : r.length % 2 ^ 16 = r.length := Nat.mod_eq_of_lt (by rw [hsame] at hcap; omega)
        refine ⟨by omega, by rw [← hsame]; exact hcap, ?_⟩
        rw [bytes_eq (by rw [hsame, hoff, hlen]; omega), hoff, hlen, hsame, hmod]
        exact (List.prefix_iff_eq_take.mp hpre).symm
  · have hoff : (storeSlice d r).1.off = d.text.length := by
      show (store d r).1 = d.text.length
      rw [store, if_neg (by rw [hcapv]; exact not_or.mpr ⟨hr, hfull⟩)]
    have hstored : poolAfter d.text r = d.text ++ r.take (24575 - d.text.length) := by
      rw [poolAfter, if_neg (by rw [hcapv]; exact not_or.mpr ⟨hr, hfull⟩), hcapv]
    rw [hstored] at hstart
    rw [hoff]
    constructor
    · -- a slice that holds the string has its length
      rintro ⟨hle, -, hbytes⟩
      have hl := congrArg List.length hbytes
      rw [length_bytes, hlen] at hl
      left
      omega
    · rintro (hle | ⟨hfull', -⟩)
      · have hmod : r.length % 2 ^ 16 = r.length := Nat.mod_eq_of_lt (by omega)
        rw [List.take_of_length_le (by omega)] at hstart
        have hF := hstart.length_le
        rw [List.length_append] at hF
        refine ⟨by omega, hcap, ?_⟩
        rw [bytes_eq (by rw [hoff, hlen]; omega), hoff, hlen, hmod]
        obtain ⟨more, hmore⟩ := hstart
        rw [← hmore, List.append_assoc, List.drop_left, List.take_left]
      · omega

/-! ## The texts of a page -/

/-- The strings that the attributes of an element store. -/
def attrTexts (a : List UInt8) : List (List UInt8) :=
  [(attr a (ascii "href")).getD [], (attr a (ascii "src")).getD [], (attr a (ascii "id")).getD [],
    (attr a (ascii "class")).getD [], decode 192 ((attr a (ascii "alt")).getD [])]

/-- The names that a style sheet stores, and the number of rules behind it. -/
def sheetTexts : ℕ → List (List UInt8 × Style) → List (List UInt8) × ℕ
  | rules, [] => ([], rules)
  | rules, r :: rs =>
    if rules ≥ asterMaxCssRules then ([], rules)
    else
      match selectorParts r.1 with
      | none => sheetTexts rules rs
      | some (_, _, name) =>
        let rest := sheetTexts (if name = [] ∨ u16 name.length ≠ 0 then rules + 1 else rules) rs
        (name :: rest.1, rest.2)

/-- The texts of a token and the number of rules behind it. -/
def tokenTexts (rules : ℕ) : Token → List (List UInt8) × ℕ
  | .text raw => ([decode 768 raw], rules)
  | .skip => ([], rules)
  | .close _ => ([], rules)
  | .element _ a _ => (attrTexts a, rules)
  | .style a sheet =>
    (attrTexts a ++ (sheetTexts rules (sheetRules sheet.length sheet)).1,
      (sheetTexts rules (sheetRules sheet.length sheet)).2)
  | .script a => (attrTexts a, rules)

/-- The number of nodes that a token adds. -/
def tokenNodes : Token → ℕ
  | .text raw => if decode 768 raw = [] then 0 else 1
  | .skip => 0
  | .close _ => 0
  | .element _ _ _ => 1
  | .style _ _ => 1
  | .script _ => 1

def pageTextsLoop : ℕ → List UInt8 → ℕ → ℕ → List (List UInt8)
  | 0, _, _, _ => []
  | fuel + 1, p, nodes, rules =>
    if p = [] ∨ nodes ≥ asterMaxNodes then []
    else
      (tokenTexts rules (nextToken p).1).1 ++ pageTextsLoop fuel (nextToken p).2
        (nodes + tokenNodes (nextToken p).1) (tokenTexts rules (nextToken p).1).2

/-- The texts of a page in the order in which they are stored: the text between tags, the values of
`href`, `src`, `id`, `class` and `alt`, and the names in the selectors of style sheets. -/
def pageTexts (h : List UInt8) : List (List UInt8) := pageTextsLoop (cstr h).length (cstr h) 1 0

/-! ## Collecting slices -/

/-- All slices of a document. -/
def Document.slices (d : Document) : List Slice :=
  (d.nodes.map Node.slices).flatten ++ d.css.map CssRule.selector

/-- The slices hold their strings in the final document `F`. -/
def AllHeld (F : Document) (sls : List Slice) : Prop := ∀ sl ∈ sls, sl.len ≠ 0 → Held F sl

theorem allHeld_append {F : Document} {a b : List Slice} :
    AllHeld F (a ++ b) ↔ AllHeld F a ∧ AllHeld F b := List.forall_mem_append

theorem allHeld_perm {F : Document} {a b : List Slice} (h : a.Perm b) :
    AllHeld F a ↔ AllHeld F b := by
  unfold AllHeld
  simp only [h.mem_iff]

theorem allHeld_none (F : Document) : AllHeld F [Slice.none] := by
  intro sl hsl hne
  rw [List.mem_singleton.mp hsl] at hne
  exact absurd rfl hne

/-- Store strings one after the other. -/
def storeAll : Document → List (List UInt8) → List Slice × Document
  | d, [] => ([], d)
  | d, r :: rs =>
    ((storeSlice d r).1 :: (storeAll (storeSlice d r).2 rs).1, (storeAll (storeSlice d r).2 rs).2)

theorem storeAll_text (rs : List (List UInt8)) : ∀ d : Document,
    (storeAll d rs).2.text = poolAll d.text rs := by
  induction rs with
  | nil => exact fun _ => rfl
  | cons r rs ih =>
    intro d
    rw [storeAll, ih]
    show poolAll (store d r).2.text rs = _
    rw [store_text]
    rfl

theorem After.of_poolAll {pool : List UInt8} {rs : List (List UInt8)} {F : Document}
    (h : After (poolAll pool rs) F) : After pool F :=
  ⟨(prefix_poolAll rs pool).trans h.1, h.2⟩

theorem allHeld_storeAll (rs : List (List UInt8)) : ∀ {d F : Document},
    After (poolAll d.text rs) F → (AllHeld F (storeAll d rs).1 ↔ AllFit d.text rs) := by
  induction rs with
  | nil =>
    intro d F _
    exact ⟨fun _ => trivial, fun _ => by simp [AllHeld, storeAll]⟩
  | cons r rs ih =>
    intro d F h
    have htext : (storeSlice d r).2.text = poolAfter d.text r := store_text d r
    have hrest := ih (d := (storeSlice d r).2) (F := F) (by rw [htext]; exact h)
    rw [htext] at hrest
    have hfirst := held_storeSlice_iff (d := d) (r := r) (F := F) (After.of_poolAll h)
    rw [storeAll, AllFit, ← hfirst, ← hrest]
    exact List.forall_mem_cons

/-- Storing changes the pool only. -/
theorem storeSlice_rest (d : Document) (r : List UInt8) :
    (storeSlice d r).2.nodes = d.nodes ∧ (storeSlice d r).2.css = d.css := by
  unfold storeSlice store
  split <;> exact ⟨rfl, rfl⟩

/-- The slices depend on the pool only. -/
theorem storeAll_congr (rs : List (List UInt8)) : ∀ {d d' : Document}, d'.text = d.text →
    (storeAll d' rs).1 = (storeAll d rs).1 := by
  induction rs with
  | nil => exact fun _ => rfl
  | cons r rs ih =>
    intro d d' h
    have hslice : (storeSlice d' r).1 = (storeSlice d r).1 := by
      unfold storeSlice store
      rw [h]
      split <;> rfl
    have htext : (storeSlice d' r).2.text = (storeSlice d r).2.text := by
      show (store d' r).2.text = (store d r).2.text
      rw [store_text, store_text, h]
    rw [storeAll, storeAll, hslice, ih htext]

theorem storeAll_rest (rs : List (List UInt8)) : ∀ d : Document,
    (storeAll d rs).2.nodes = d.nodes ∧ (storeAll d rs).2.css = d.css := by
  induction rs with
  | nil => exact fun _ => ⟨rfl, rfl⟩
  | cons r rs ih =>
    intro d
    obtain ⟨hnodes, hcss⟩ := ih (storeSlice d r).2
    obtain ⟨hnodes', hcss'⟩ := storeSlice_rest d r
    exact ⟨hnodes.trans hnodes', hcss.trans hcss'⟩

theorem storeSlice_nil (d : Document) : storeSlice d [] = (Slice.none, d) := by
  unfold storeSlice store
  rw [if_pos (.inl rfl)]
  rfl

/-! ## Attributes -/

/-- An attribute that is absent or empty stores the empty string. -/
theorem attrSlice_eq (s name : List UInt8) (set : Node → Slice → Node) (r : Node × Document)
    (hnone : set r.1 Slice.none = r.1) :
    attrSlice s name set r = (set r.1 (storeSlice r.2 ((attr s name).getD [])).1,
      (storeSlice r.2 ((attr s name).getD [])).2) := by
  unfold attrSlice
  cases attr s name with
  | none => simp [storeSlice_nil, hnone]
  | some v =>
    by_cases hv : v = []
    · simp [hv, storeSlice_nil, hnone]
    · simp [hv]

theorem decode_nil (cap : ℕ) : decode cap [] = [] := by
  unfold decode
  split <;> rfl

theorem attrAlt_eq (s : List UInt8) (r : Node × Document) (hnone : r.1.text = Slice.none) :
    attrAlt s r = ({ r.1 with text := (storeSlice r.2 (decode 192 ((attr s (ascii "alt")).getD []))).1 },
      (storeSlice r.2 (decode 192 ((attr s (ascii "alt")).getD []))).2) := by
  have hsame : { r.1 with text := Slice.none } = r.1 := by
    rw [← hnone]
  unfold attrAlt
  cases attr s (ascii "alt") with
  | none => simp [decode_nil, storeSlice_nil, hsame]
  | some v =>
    by_cases hv : v = []
    · simp [hv, decode_nil, storeSlice_nil, hsame]
    · simp [hv]

theorem attrHints_slices (s : List UInt8) (n : Node) : (attrHints s n).slices = n.slices := by
  unfold attrHints
  simp only
  repeat' split
  all_goals rfl

/-- **The attributes of a new element** are its texts, stored one after the other. -/
theorem attrs_slices (d : Document) {n : Node} (a : List UInt8)
    (hn : n.slices = [.none, .none, .none, .none, .none]) :
    ((attrs d n a).1.slices.Perm (storeAll d (attrTexts a)).1) ∧
      (attrs d n a).2 = (storeAll d (attrTexts a)).2 := by
  obtain ⟨htext, hhref, hsrc, hid, hcls⟩ : n.text = .none ∧ n.href = .none ∧ n.src = .none ∧
      n.id = .none ∧ n.cls = .none := by simpa [Node.slices] using hn
  unfold attrs
  simp only
  rw [attrSlice_eq a (ascii "href") _ (n, d) (by rw [← hhref]),
    attrSlice_eq a (ascii "src") _ _ (by rw [← hsrc]),
    attrSlice_eq a (ascii "id") _ _ (by rw [← hid]),
    attrSlice_eq a (ascii "class") _ _ (by rw [← hcls]), attrAlt_eq a _ htext]
  simp only [attrHints_slices]
  refine ⟨?_, rfl⟩
  simp only [Node.slices, storeAll, attrTexts]
  exact @List.perm_append_comm _ [_] [_, _, _, _]

/-! ## Steps of the parser -/

/-- The step from `d` to `d'` stores the texts `rs`; the slices that it adds hold their strings
exactly when these fit. -/
structure Stores (d d' : Document) (rs : List (List UInt8)) : Prop where
  text : d'.text = poolAll d.text rs
  held : ∀ F, After d'.text F → (AllHeld F d'.slices ↔ AllHeld F d.slices ∧ AllFit d.text rs)

theorem Stores.of_same {d d' : Document} (htext : d'.text = d.text)
    (hslices : d'.slices = d.slices) : Stores d d' [] := by
  refine ⟨htext, fun F _ => ?_⟩
  rw [hslices]
  exact ⟨fun h => ⟨h, trivial⟩, fun h => h.1⟩

theorem Stores.trans {a b c : Document} {rs rs' : List (List UInt8)} (hab : Stores a b rs)
    (hbc : Stores b c rs') : Stores a c (rs ++ rs') := by
  have htext : c.text = poolAll (poolAll a.text rs) rs' := by rw [hbc.text, hab.text]
  refine ⟨by rw [htext, poolAll_append], fun F hF => ?_⟩
  have hb : After b.text F := After.of_poolAll (hbc.text ▸ hF)
  rw [hbc.held F hF, hab.held F hb, allFit_append, ← hab.text, and_assoc]

/-- A step that adds the slices of its texts. -/
theorem Stores.of_perm {d d' : Document} {rs : List (List UInt8)}
    (htext : d'.text = poolAll d.text rs)
    (hperm : d'.slices.Perm (d.slices ++ (storeAll d rs).1)) : Stores d d' rs := by
  refine ⟨htext, fun F hF => ?_⟩
  rw [allHeld_perm hperm, allHeld_append, allHeld_storeAll rs (htext ▸ hF)]

/-- The selectors that name nothing have the empty slice. -/
def RulesOk (d : Document) : Prop :=
  ∀ r ∈ d.css, r.selector.len ≠ 0 ∨ r.selector = Slice.none

/-- What a rule stores. -/
theorem cssadd_stores (d : Document) (r : List UInt8 × Style) (hok : RulesOk d) :
    Stores d (cssadd d r.1 r.2) (sheetTexts d.css.length [r]).1 ∧
      (cssadd d r.1 r.2).css.length = (sheetTexts d.css.length [r]).2 ∧
      RulesOk (cssadd d r.1 r.2) := by
  unfold cssadd
  by_cases hfull : d.css.length ≥ asterMaxCssRules
  · simp only [sheetTexts, hfull, if_true]
    exact ⟨.of_same rfl rfl, trivial, hok⟩
  simp only [sheetTexts, hfull, if_false]
  unfold selector
  cases selectorParts r.1 with
  | none => exact ⟨.of_same rfl rfl, rfl, hok⟩
  | some parts =>
    obtain ⟨tag, kind, name⟩ := parts
    simp only
    obtain ⟨hnodes, hcss⟩ := storeSlice_rest d name
    have hsheet : (sheetTexts (if name = [] ∨ u16 name.length ≠ 0 then d.css.length + 1
        else d.css.length) []) = ([], if name = [] ∨ u16 name.length ≠ 0 then d.css.length + 1
        else d.css.length) := rfl
    by_cases hname : name = []
    · subst hname
      rw [if_pos rfl, if_pos (.inl rfl)]
      refine ⟨⟨?_, fun F _ => ?_⟩, by simp, ?_⟩
      · show d.text = poolAfter d.text []
        rw [poolAfter, if_pos (.inl rfl)]
      · have hslices : Document.slices { d with css := d.css ++ [⟨tag, kind, .none, r.2⟩] }
            = d.slices ++ [Slice.none] := by
          simp [Document.slices]
        rw [hslices, allHeld_append]
        simp [AllFit, Fits, allHeld_none]
      · intro r' hr'
        rcases List.mem_append.mp hr' with hr' | hr'
        · exact hok r' hr'
        · rw [List.mem_singleton.mp hr']
          exact .inr rfl
    · rw [if_neg hname]
      by_cases hlen : u16 name.length = 0
      · have hsl : (storeSlice d name).1.len = 0 := hlen
        simp only [hsl, ne_eq, not_true_eq_false, if_false, hlen, hname, or_self]
        refine ⟨⟨?_, fun F _ => ?_⟩, by rw [hcss], fun r' hr' => hok r' (hcss ▸ hr')⟩
        · exact store_text d name
        · have hslices : (storeSlice d name).2.slices = d.slices := by
            rw [Document.slices, hnodes, hcss]
            rfl
          rw [hslices]
          exact ⟨fun h => ⟨h, .inl hlen, trivial⟩, fun h => h.1⟩
      · have hsl : (storeSlice d name).1.len ≠ 0 := hlen
        simp only [hsl, ne_eq, not_false_eq_true, if_true, hlen, or_true]
        refine ⟨.of_perm (store_text d name) ?_, by simp [hcss], ?_⟩
        · simp [Document.slices, storeAll, hnodes, hcss]
        · intro r' hr'
          rcases List.mem_append.mp hr' with hr' | hr'
          · exact hok r' (hcss ▸ hr')
          · rw [List.mem_singleton.mp hr']
            exact .inl hsl

theorem sheetTexts_cons (n : ℕ) (r : List UInt8 × Style) (rs : List (List UInt8 × Style)) :
    sheetTexts n (r :: rs) = ((sheetTexts n [r]).1 ++ (sheetTexts (sheetTexts n [r]).2 rs).1,
      (sheetTexts (sheetTexts n [r]).2 rs).2) := by
  have hfullAll : ∀ {n : ℕ} (rs : List (List UInt8 × Style)), n ≥ asterMaxCssRules →
      sheetTexts n rs = ([], n) := by
    intro n rs hn
    cases rs with
    | nil => rfl
    | cons r rs => rw [sheetTexts, if_pos hn]
  by_cases hfull : n ≥ asterMaxCssRules
  · rw [hfullAll _ hfull, hfullAll _ hfull, hfullAll _ hfull]
    rfl
  · simp only [sheetTexts, hfull, if_false]
    cases selectorParts r.1 with
    | none => rfl
    | some parts => rfl

/-- What a style sheet stores. -/
theorem css_stores (d : Document) (sheet : List UInt8) (hok : RulesOk d) :
    Stores d (css d sheet) (sheetTexts d.css.length (sheetRules sheet.length sheet)).1 ∧
      (css d sheet).css.length = (sheetTexts d.css.length (sheetRules sheet.length sheet)).2 ∧
      RulesOk (css d sheet) := by
  unfold css
  generalize sheetRules sheet.length sheet = rs
  induction rs generalizing d with
  | nil => exact ⟨.of_same rfl rfl, rfl, hok⟩
  | cons r rs ih =>
    obtain ⟨hstores, hlen, hok'⟩ := cssadd_stores d r hok
    obtain ⟨hstores', hlen', hok''⟩ := ih (cssadd d r.1 r.2) hok'
    rw [hlen] at hstores' hlen'
    rw [List.foldl_cons, sheetTexts_cons]
    exact ⟨hstores.trans hstores', hlen', hok''⟩

theorem linkChild_slices (nodes : List Node) (p i : ℕ) :
    (linkChild nodes p i).map Node.slices = nodes.map Node.slices :=
  linkChild_map (fun _ _ => rfl) (fun _ _ => rfl) nodes p i

/-- What a piece of text stores. -/
theorem applyText_stores (d : Document) (top : ℕ) (raw : List UInt8)
    (hroom : d.nodes.length < asterMaxNodes) :
    Stores d (applyText d top raw) [decode 768 raw] ∧
      (applyText d top raw).nodes.length = d.nodes.length + tokenNodes (.text raw) ∧
      (applyText d top raw).css = d.css := by
  unfold applyText tokenNodes
  simp only
  generalize decode 768 raw = t
  by_cases ht : t = []
  · simp only [ht, if_true]
    refine ⟨⟨?_, fun F _ => ?_⟩, by simp, by simp⟩
    · show d.text = poolAfter d.text []
      rw [poolAfter, if_pos (.inl rfl)]
    · simp [AllFit, Fits]
  simp only [ht, if_false]
  obtain ⟨hnodes, hcss⟩ := storeSlice_rest d t
  rcases add_cases (storeSlice d t).2 top .text .unknown (storeSlice d t).1 with
    ⟨hno, -⟩ | ⟨-, hadd⟩
  · rw [hnodes] at hno
    omega
  rw [hadd]
  simp only [hnodes]
  generalize hl : linkChild (d.nodes ++ [Node.new (some top) .text .unknown (storeSlice d t).1]) top
    d.nodes.length = nodes
  have hmap : nodes.map Node.slices = d.nodes.map Node.slices ++
      [[(storeSlice d t).1, .none, .none, .none, .none]] := by
    rw [← hl, linkChild_slices, List.map_append]
    rfl
  have hlen : nodes.length = d.nodes.length + 1 := by
    rw [← hl, length_linkChild]
    simp
  -- the title is not part of the pool
  have hfinal : ∀ d' : Document, d'.nodes = nodes → d'.css = (storeSlice d t).2.css →
      d'.text = (storeSlice d t).2.text →
      Stores d d' [t] ∧ d'.nodes.length = d.nodes.length + 1 ∧ d'.css = d.css := by
    intro d' hn hc htext
    refine ⟨⟨by rw [htext]; exact store_text d t, fun F hF => ?_⟩, by rw [hn, hlen],
      by rw [hc, hcss]⟩
    have hafter : After (poolAll d.text [t]) F := by
      rw [htext, show (storeSlice d t).2.text = poolAfter d.text t from store_text d t] at hF
      exact hF
    have hperm : d'.slices.Perm
        (d.slices ++ (storeAll d [t]).1 ++ [.none, .none, .none, .none]) := by
      rw [Document.slices, hn, hc, hcss, hmap]
      simp only [Document.slices, List.flatten_append, List.flatten_cons, List.flatten_nil,
        List.append_nil, storeAll, List.append_assoc, List.cons_append, List.nil_append]
      refine List.Perm.append_left _ ?_
      exact @List.perm_append_comm _ [_, _, _, _, _] _
    rw [allHeld_perm hperm, allHeld_append, allHeld_append, allHeld_storeAll [t] hafter]
    have hnone : AllHeld F [.none, .none, .none, .none] := by
      intro sl hsl hne
      simp only [List.mem_cons, List.not_mem_nil, or_false, or_self] at hsl
      rw [hsl] at hne
      exact absurd rfl hne
    exact ⟨fun h => h.1, fun h => ⟨h, hnone⟩⟩
  split
  · exact hfinal _ rfl rfl rfl
  · exact hfinal _ rfl rfl rfl

/-- What the attributes of an element store. -/
theorem applyElement_stores (d : Document) (top : ℕ) (t : Tag) (a : List UInt8)
    (hroom : d.nodes.length < asterMaxNodes) :
    (applyElement d top t a).1 = some d.nodes.length ∧
      Stores d (applyElement d top t a).2 (attrTexts a) ∧
      (applyElement d top t a).2.nodes.length = d.nodes.length + 1 ∧
      (applyElement d top t a).2.css = d.css := by
  unfold applyElement
  rcases add_cases d top .element t .none with ⟨hno, -⟩ | ⟨-, hadd⟩
  · omega
  rw [hadd]
  simp only
  generalize hl : linkChild (d.nodes ++ [Node.new (some top) .element t .none]) top d.nodes.length
    = nodes
  have hmap : nodes.map Node.slices = d.nodes.map Node.slices ++
      [[.none, .none, .none, .none, .none]] := by
    rw [← hl, linkChild_slices, List.map_append]
    rfl
  have hlen : nodes.length = d.nodes.length + 1 := by
    rw [← hl, length_linkChild]
    simp
  obtain ⟨n, hn⟩ : ∃ n, nodes[d.nodes.length]? = some n :=
    ⟨_, List.getElem?_eq_getElem (by omega)⟩
  have hslices : n.slices = [.none, .none, .none, .none, .none] := by
    have h := congrArg (fun l => l[d.nodes.length]?) hmap
    simp only [List.getElem?_map, hn] at h
    simpa using h
  rw [hn]
  simp only
  obtain ⟨hperm, hdoc⟩ := attrs_slices { d with nodes := nodes } a hslices
  generalize attrs { d with nodes := nodes } n a = r at hperm hdoc ⊢
  obtain ⟨n', d'⟩ := r
  simp only at hperm hdoc ⊢
  subst hdoc
  obtain ⟨hnodes, hcss⟩ := storeAll_rest (attrTexts a) { d with nodes := nodes }
  have hset : (nodes.set d.nodes.length n').map Node.slices
      = d.nodes.map Node.slices ++ [n'.slices] := by
    rw [List.map_set, hmap]
    simp
  refine ⟨trivial, .of_perm (storeAll_text _ _) ?_, ?_, hcss⟩
  · rw [@storeAll_congr (attrTexts a) d { d with nodes := nodes } rfl] at hperm
    simp only [Document.slices, hnodes, hcss, hset, List.flatten_append, List.flatten_cons,
      List.flatten_nil, List.append_nil, List.append_assoc]
    refine List.Perm.append_left _ ?_
    exact List.perm_append_comm.trans (List.Perm.append_left _ hperm)
  · simp only [hnodes, List.length_set, hlen]

/-- **What a token stores.** -/
theorem applyToken_stores {s : ParseState} (hroom : s.doc.nodes.length < asterMaxNodes)
    (hok : RulesOk s.doc) (token : Token) :
    Stores s.doc (applyToken s token).doc (tokenTexts s.doc.css.length token).1 ∧
      (applyToken s token).doc.nodes.length = s.doc.nodes.length + tokenNodes token ∧
      (applyToken s token).doc.css.length = (tokenTexts s.doc.css.length token).2 ∧
      RulesOk (applyToken s token).doc := by
  have hsame : ∀ {d : Document}, d.css = s.doc.css → RulesOk d := by
    intro d hd r hr
    exact hok r (hd ▸ hr)
  cases token with
  | text raw =>
    obtain ⟨hstores, hlen, hcss⟩ := applyText_stores s.doc (s.stack.headD 0) raw hroom
    exact ⟨hstores, hlen, congrArg List.length hcss, hsame hcss⟩
  | skip => exact ⟨.of_same rfl rfl, rfl, rfl, hok⟩
  | close t => exact ⟨.of_same rfl rfl, rfl, rfl, hok⟩
  | element t a self =>
    obtain ⟨hidx, hstores, hlen, hcss⟩ := applyElement_stores s.doc (s.stack.headD 0) t a hroom
    have hdoc : (applyToken s (.element t a self)).doc
        = (applyElement s.doc (s.stack.headD 0) t a).2 := by
      simp only [applyToken]
      generalize applyElement s.doc (s.stack.headD 0) t a = r at hidx ⊢
      obtain ⟨idx, d⟩ := r
      simp only at hidx
      subst hidx
      simp only
      split <;> rfl
    rw [hdoc]
    exact ⟨hstores, hlen, congrArg List.length hcss, hsame hcss⟩
  | style a sheet =>
    obtain ⟨hidx, hstores, hlen, hcss⟩ := applyElement_stores s.doc (s.stack.headD 0) .style a hroom
    have hdoc : (applyToken s (.style a sheet)).doc
        = css (applyElement s.doc (s.stack.headD 0) .style a).2 sheet := by
      simp only [applyToken]
      generalize applyElement s.doc (s.stack.headD 0) .style a = r at hidx ⊢
      obtain ⟨idx, d⟩ := r
      simp only at hidx
      subst hidx
      rfl
    obtain ⟨hstores', hcount, hok'⟩ := css_stores _ sheet (hsame hcss)
    rw [hcss] at hstores' hcount
    rw [hdoc]
    exact ⟨hstores.trans hstores', by rw [css_nodes, hlen]; rfl, hcount, hok'⟩
  | script a =>
    obtain ⟨-, hstores, hlen, hcss⟩ := applyElement_stores s.doc (s.stack.headD 0) .script a hroom
    exact ⟨hstores, hlen, congrArg List.length hcss, hsame hcss⟩

/-- **What a run of the parser stores.** -/
theorem parseLoop_stores (fuel : ℕ) : ∀ (p : List UInt8) {s : ParseState}, RulesOk s.doc →
    Stores s.doc (parseLoop fuel p s).doc
        (pageTextsLoop fuel p s.doc.nodes.length s.doc.css.length) ∧
      RulesOk (parseLoop fuel p s).doc := by
  induction fuel with
  | zero => exact fun _ _ hok => ⟨.of_same rfl rfl, hok⟩
  | succ fuel ih =>
    intro p s hok
    rw [parseLoop, pageTextsLoop]
    split
    · exact ⟨.of_same rfl rfl, hok⟩
    · next hgo =>
      obtain ⟨hstores, hlen, hcount, hok'⟩ :=
        applyToken_stores (by omega) hok (nextToken p).1
      obtain ⟨hstores', hok''⟩ := ih (nextToken p).2 hok'
      rw [hlen, hcount] at hstores'
      exact ⟨hstores.trans hstores', hok''⟩

/-- **The slices of a page hold their strings exactly when its texts fit.** -/
theorem textBacked_iff (d : Document) (h : List UInt8) :
    TextBacked (asterParseHtml d h).2 ↔ AllFit [] (pageTexts h) := by
  have hinit : RulesOk (asterDocumentInit d) := by
    intro r hr
    have hnone : (asterDocumentInit d).css = [] := rfl
    simp [hnone] at hr
  obtain ⟨hstores, hok⟩ := parseLoop_stores (cstr h).length (cstr h)
    (s := ⟨asterDocumentInit d, [0]⟩) hinit
  generalize hs : parseLoop (cstr h).length (cstr h) ⟨asterDocumentInit d, [0]⟩ = s
    at hstores hok
  have hpool : s.doc.text = poolAll [] (pageTexts h) := hstores.text
  have hcap : s.doc.text.length ≤ asterTextCap - 1 := by
    rw [hpool]
    exact length_poolAll_le _ (by simp)
  have hiff := hstores.held s.doc ⟨List.prefix_rfl, hcap⟩
  have hroot : AllHeld s.doc (asterDocumentInit d).slices := by
    have hnone : (asterDocumentInit d).slices = [.none, .none, .none, .none, .none] := rfl
    intro sl hsl hne
    simp only [hnone, List.mem_cons, List.not_mem_nil, or_false, or_self] at hsl
    rw [hsl] at hne
    exact absurd rfl hne
  have hpage : AllHeld s.doc s.doc.slices ↔ AllFit [] (pageTexts h) :=
    hiff.trans ⟨fun h => h.2, fun h => ⟨hroot, h⟩⟩
  -- the selectors of length 0 are backed by nothing
  have hbacked : TextBacked s.doc ↔ AllHeld s.doc s.doc.slices := by
    unfold TextBacked Document.slices
    rw [allHeld_append]
    refine and_congr ?_ ?_
    · constructor
      · intro hall sl hsl
        obtain ⟨sls, hsls, hmem⟩ := List.mem_flatten.mp hsl
        obtain ⟨n, hn, rfl⟩ := List.mem_map.mp hsls
        exact hall n hn sl hmem
      · intro hall n hn sl hsl
        exact hall sl (List.mem_flatten.mpr ⟨n.slices, List.mem_map_of_mem hn, hsl⟩)
    · constructor
      · intro hall sl hsl _
        obtain ⟨r, hr, rfl⟩ := List.mem_map.mp hsl
        exact hall r hr
      · intro hall r hr
        rcases hok r hr with hlen | hnone
        · exact hall r.selector (List.mem_map_of_mem hr) hlen
        · rw [hnone]
          exact ⟨Nat.zero_le _, hcap, rfl⟩
  rw [← hpage, ← hbacked]
  unfold asterParseHtml
  simp only [hs]
  split <;> rfl

end Orion.Aster
