import Orion.Aster.Inherit

/-!
# Inline colours (`styletext`, `attrs`, `resolved`)

A style attribute is a list of declarations between semicolons (`declarations`), which `styletext` reads
one after the other (`styletext_eq`).  A node keeps the colour in a field where 0 says that there is
none; so the inline colour of an element wins exactly when it is not black, or when a rule makes the
element black anyway (`inline_color_iff`).
-/

namespace Orion.Aster

/-! ## Declarations -/

/-- A piece between semicolons: the trimmed name and what is behind the colon. -/
def declaration (piece : List UInt8) : Option (List UInt8 × List UInt8) :=
  if 58 ∈ piece then some (trimSp (piece.takeWhile (· ≠ 58)), (piece.dropWhile (· ≠ 58)).drop 1) else none

def declarations (v : List UInt8) : List (List UInt8 × List UInt8) := (v.splitOn 59).filterMap declaration

/-- The colour that a declaration sets. -/
def colorOf (e : List UInt8 × List UInt8) : Option ℕ := if eqn e.1 (ascii "color") then color e.2 else none

/-- The last valid colour of a style attribute. -/
def finalColor (v : List UInt8) : Option ℕ := ((declarations v).filterMap colorOf).getLast?

theorem declarations_piece {s : List UInt8} (hs : 59 ∉ s) : declarations s = (declaration s).toList := by
  rw [declarations, List.splitOn_eq_singleton hs]
  cases h : declaration s <;> simp [h]

theorem declarations_append {s : List UInt8} (hs : 59 ∉ s) (r : List UInt8) :
    declarations (s ++ 59 :: r) = (declaration s).toList ++ declarations r := by
  rw [declarations, List.splitOn_append_cons_self_of_not_mem hs]
  cases h : declaration s <;> simp [h, declarations]

theorem declarations_semicolon (s : List UInt8) : declarations (59 :: s) = declarations s :=
  declarations_append (s := []) (by simp) s

/-- A blank before a piece does not count. -/
theorem declaration_blank {c : UInt8} (hc : sp c = true) (piece : List UInt8) :
    declaration (c :: piece) = declaration piece := by
  have hne : c ≠ 58 := by
    rintro rfl
    cases hc
  have htrim : ∀ s, trimSp (c :: s) = trimSp s := by
    intro s
    rw [trimSp, List.dropWhile_cons_of_pos hc]
    rfl
  have hmem : 58 ∈ c :: piece ↔ 58 ∈ piece := by
    rw [List.mem_cons, or_iff_right (Ne.symm hne)]
  unfold declaration
  simp only [hmem]
  rw [List.takeWhile_cons_of_pos (by simpa using hne), List.dropWhile_cons_of_pos (by simpa using hne), htrim]

/-- The pieces of a text: the first, and the others if there is a semicolon. -/
theorem pieces_cases (s : List UInt8) : 59 ∉ s ∨ ∃ piece r, s = piece ++ 59 :: r ∧ 59 ∉ piece := by
  by_cases h : (59 : UInt8) ∈ s
  · obtain ⟨piece, r, hs, hno⟩ := List.eq_append_cons_of_mem h
    exact .inr ⟨piece, r, hs, hno⟩
  · exact .inl h

theorem declarations_blank {c : UInt8} (hc : sp c = true) (s : List UInt8) :
    declarations (c :: s) = declarations s := by
  have hne : c ≠ 59 := by
    rintro rfl
    cases hc
  rcases pieces_cases s with hs | ⟨piece, r, rfl, hno⟩
  · have hs' : 59 ∉ c :: s := by
      rw [List.mem_cons, not_or]
      exact ⟨Ne.symm hne, hs⟩
    rw [declarations_piece hs', declarations_piece hs, declaration_blank hc]
  · have hno' : 59 ∉ c :: piece := by
      rw [List.mem_cons, not_or]
      exact ⟨Ne.symm hne, hno⟩
    rw [← List.cons_append, declarations_append hno', declarations_append hno, declaration_blank hc]

/-- What `styletext` skips before a declaration. -/
theorem declarations_skip (s : List UInt8) :
    declarations (s.dropWhile fun c => sp c || c = 59) = declarations s := by
  induction s with
  | nil => rfl
  | cons c s ih =>
    rw [List.dropWhile_cons]
    split
    · next h =>
      rw [ih]
      rcases Bool.or_eq_true .. |>.mp h with hc | hc
      · rw [declarations_blank hc]
      · rw [of_decide_eq_true hc, declarations_semicolon]
    · rfl

/-! ## The scanner -/

/-- A declaration whose name does not begin with a blank. -/
theorem declaration_name {name value : List UInt8} (hname : ∀ c ∈ name, declNameChar c = true)
    (hhead : ∀ c ∈ name.head?, sp c = false) :
    declaration (name ++ 58 :: value) = some (name.rdropWhile sp, value) := by
  have hno : ∀ c ∈ name, (decide (c ≠ 58)) = true := by
    intro c hc
    have h := hname c hc
    rw [declNameChar, Bool.and_eq_true] at h
    exact h.1
  have hdrop : name.dropWhile sp = name := by
    cases name with
    | nil => rfl
    | cons c name =>
      rw [List.dropWhile_cons_of_neg]
      rw [hhead c rfl]
      exact Bool.false_ne_true
  have hcolon : (58 :: value).takeWhile (· ≠ 58) = [] := List.takeWhile_cons_of_neg (by simp)
  have hcolon' : (58 :: value).dropWhile (· ≠ 58) = 58 :: value := List.dropWhile_cons_of_neg (by simp)
  unfold declaration
  rw [if_pos (by simp), List.takeWhile_append_of_pos hno, List.dropWhile_append_of_pos hno, hcolon, hcolon',
    List.append_nil, trimSp, hdrop]
  rfl

/-- The rest behind a declaration begins with a semicolon, or is empty. -/
theorem declarations_value {name : List UInt8} (hname : ∀ c ∈ name, declNameChar c = true)
    (hhead : ∀ c ∈ name.head?, sp c = false) (rest : List UInt8) :
    declarations (name ++ 58 :: rest) =
      (name.rdropWhile sp, rest.takeWhile (· ≠ 59)) :: declarations (rest.dropWhile (· ≠ 59)) := by
  have hno : 59 ∉ name := by
    intro hmem
    have h := hname 59 hmem
    cases h
  have hpiece : ∀ value : List UInt8, 59 ∉ value → 59 ∉ name ++ 58 :: value := by
    intro value hvalue
    simp [hno, hvalue]
  rcases pieces_cases rest with hrest | ⟨value, r, rfl, hvalue⟩
  · have hall : ∀ c ∈ rest, (decide (c ≠ 59)) = true := by
      intro c hc
      exact decide_eq_true fun h => hrest (h ▸ hc)
    rw [declarations_piece (hpiece rest hrest), declaration_name hname hhead, List.takeWhile_eq_self_iff.mpr hall,
      List.dropWhile_eq_nil_iff.mpr hall]
    rfl
  · have hall : ∀ c ∈ value, (decide (c ≠ 59)) = true := by
      intro c hc
      exact decide_eq_true fun h => hvalue (h ▸ hc)
    have hassoc : name ++ 58 :: (value ++ 59 :: r) = (name ++ 58 :: value) ++ 59 :: r := by simp
    have hsemi : (59 :: r).takeWhile (· ≠ 59) = [] := List.takeWhile_cons_of_neg (by simp)
    have hsemi' : (59 :: r).dropWhile (· ≠ 59) = 59 :: r := List.dropWhile_cons_of_neg (by simp)
    rw [hassoc, declarations_append (hpiece value hvalue), declaration_name hname hhead,
      List.takeWhile_append_of_pos hall, List.dropWhile_append_of_pos hall, hsemi, hsemi', List.append_nil,
      declarations_semicolon]
    rfl

/-- A piece without a colon is no declaration. -/
theorem declarations_nameless {name : List UInt8} (hname : ∀ c ∈ name, declNameChar c = true)
    (rest : List UInt8) : declarations (name ++ 59 :: rest) = declarations (59 :: rest) := by
  have hno : ∀ c : UInt8, declNameChar c = false → c ∉ name := by
    intro c hc hmem
    rw [hname c hmem] at hc
    cases hc
  have hnone : declaration name = none := if_neg (hno 58 (by decide))
  rw [declarations_append (hno 59 (by decide)), hnone, declarations_semicolon]
  rfl

/-- **The scanner reads the declarations in order.** -/
theorem styletextLoop_eq : ∀ (fuel : ℕ) {s : List UInt8} (st : Style), s.length ≤ fuel →
    styletextLoop fuel s st = (declarations s).foldl (fun st e => decl st e.1 e.2) st := by
  intro fuel
  induction fuel with
  | zero =>
    intro s st h
    obtain rfl : s = [] := List.length_eq_zero_iff.mp (by omega)
    rfl
  | succ fuel ih =>
    intro s st h
    rw [styletextLoop]
    by_cases hs : s = []
    · rw [if_pos hs, hs]
      rfl
    rw [if_neg hs, ← declarations_skip s]
    simp only
    have hlen := length_dropWhile_le (fun c => sp c || c = 59) s
    have hskip : ∀ c ∈ (s.dropWhile fun c => sp c || c = 59).head?, (sp c || decide (c = 59)) = false := by
      intro c hc
      have h := List.head?_dropWhile_not (fun c => sp c || decide (c = 59)) s
      rw [Option.mem_def.mp hc] at h
      simpa using h
    generalize (s.dropWhile fun c => sp c || c = 59) = w at hlen hskip ⊢
    have hsplit := List.takeWhile_append_dropWhile (p := declNameChar) (l := w)
    have hname : ∀ c ∈ w.takeWhile declNameChar, declNameChar c = true := fun c hc =>
      List.mem_takeWhile_imp hc
    have hstop := List.head?_dropWhile_not declNameChar w
    have hhead : ∀ c ∈ (w.takeWhile declNameChar).head?, sp c = false := by
      intro c hc
      have hw : c ∈ w.head? := by
        rw [← hsplit, List.head?_append, Option.mem_def.mp hc]
        rfl
      exact (Bool.or_eq_false_iff.mp (hskip c hw)).1
    have hfirst : ∀ r, w ≠ 59 :: r := by
      rintro r rfl
      cases hskip 59 rfl
    generalize w.takeWhile declNameChar = name at *
    cases hrest : w.dropWhile declNameChar with
    | nil =>
      rw [hrest, List.append_nil] at hsplit
      have hnone : declarations w = [] := by
        have hno : ∀ c : UInt8, declNameChar c = false → c ∉ w := by
          intro c hc hmem
          rw [hname c (hsplit ▸ hmem)] at hc
          cases hc
        rw [declarations_piece (hno 59 (by decide)), declaration, if_neg (hno 58 (by decide))]
        rfl
      rw [hnone]
      cases fuel <;> rfl
    | cons c rest =>
      rw [hrest] at hsplit hstop
      have hc : declNameChar c = false := by simpa using hstop
      have hwlen := congrArg List.length hsplit
      rw [List.length_append, List.length_cons] at hwlen
      by_cases hcolon : c = 58
      · subst hcolon
        have hle := length_dropWhile_le (· ≠ 59) rest
        rw [← hsplit, declarations_value hname hhead, List.foldl_cons]
        exact ih _ (by omega)
      · have hsemi : c = 59 := by
          unfold declNameChar at hc
          simpa [hcolon] using hc
        subst hsemi
        have hpos : 0 < name.length := by
          apply List.length_pos_of_ne_nil
          rintro rfl
          exact hfirst rest hsplit.symm
        rw [← hsplit, declarations_nameless hname]
        exact ih _ (by simp; omega)

theorem styletext_eq (v : List UInt8) :
    styletext v = (declarations v).foldl (fun st e => decl st e.1 e.2) ⟨0, 0, false, 0⟩ :=
  styletextLoop_eq _ _ le_rfl

/-! ## The colour -/

theorem trimSp_trimSp (s : List UInt8) : trimSp (trimSp s) = trimSp s := by
  have hhead : (trimSp s).dropWhile sp = trimSp s := by
    have hstop := List.head?_dropWhile_not sp s
    obtain ⟨blanks, hsuf⟩ := List.rdropWhile_prefix sp (l := s.dropWhile sp)
    rw [← hsuf] at hstop
    show List.dropWhile sp ((s.dropWhile sp).rdropWhile sp) = (s.dropWhile sp).rdropWhile sp
    generalize (s.dropWhile sp).rdropWhile sp = t at hstop ⊢
    cases t with
    | nil => rfl
    | cons c t => exact List.dropWhile_cons_of_neg (by simpa using hstop)
  conv_lhs => rw [trimSp, hhead]
  exact List.rdropWhile_idempotent sp (s.dropWhile sp)

theorem color_trimSp (v : List UInt8) : color (trimSp v) = color v := by
  unfold color
  rw [trimSp_trimSp]

/-- What a declaration does to the colour. -/
theorem decl_color (st : Style) (n v : List UInt8) :
    (decl st n v).color = (colorOf (n, v)).getD st.color ∧
      (decl st n v).colorSet = (st.colorSet || (colorOf (n, v)).isSome) := by
  unfold decl colorOf
  simp only
  rw [color_trimSp]
  by_cases hn : eqn n (ascii "color") = true
  · rw [if_pos hn, if_pos hn]
    cases color v <;> simp
  · rw [if_neg hn, if_neg hn]
    repeat' split
    all_goals simp

theorem foldl_decl_color (es : List (List UInt8 × List UInt8)) : ∀ st : Style,
    (es.foldl (fun st e => decl st e.1 e.2) st).color =
        ((es.filterMap colorOf).getLast?).getD st.color ∧
      (es.foldl (fun st e => decl st e.1 e.2) st).colorSet =
        (st.colorSet || ((es.filterMap colorOf).getLast?).isSome) := by
  induction es with
  | nil =>
    intro st
    simp
  | cons e es ih =>
    intro st
    obtain ⟨hcolor, hset⟩ := ih (decl st e.1 e.2)
    obtain ⟨hcolor', hset'⟩ := decl_color st e.1 e.2
    rw [List.foldl_cons, hcolor, hset, hcolor', hset', List.filterMap_cons]
    cases colorOf e with
    | none => simp
    | some c =>
      rw [List.getLast?_cons]
      cases (es.filterMap colorOf).getLast? <;> simp

/-- **The inline colour of an element** is the last valid one of its style attribute, and black is stored
as none. -/
theorem newElement_color {d : Document} {p : ℕ} {t : Tag} {a v : List UInt8} {c : ℕ}
    (hv : attr a (ascii "style") = some v) (hc : finalColor v = some c) :
    (newElement d p t a).styleColor = c := by
  have hstyle : inlineStyle a = styletext v := by
    rw [inlineStyle, hv]
    rfl
  obtain ⟨hcolor, hset⟩ := foldl_decl_color (declarations v) ⟨0, 0, false, 0⟩
  rw [← styletext_eq, ← hstyle] at hcolor hset
  unfold finalColor at hc
  rw [hc] at hcolor hset
  rw [show newElement d p t a = _ from attrs_new d p t none none a]
  simp [hcolor, hset]

/-! ## Who wins -/

/-- Neither its inline style nor a rule gives the node a colour, as far as it is not black. -/
def Colourless (d : Document) (i : ℕ) : Prop :=
  ∀ n, d.nodes[i]? = some n →
    n.styleColor = 0 ∧ ∀ r ∈ d.css, matchesRule d r n = true → r.style.colorSet = false

/-- The first node of a chain that has a colour has black from the rule that wins. -/
def BlackByRule (d : Document) (chain : List ℕ) : Prop :=
  ∃ before i after n, chain = before ++ i :: after ∧ (∀ j ∈ before, Colourless d j) ∧
    d.nodes[i]? = some n ∧ n.styleColor = 0 ∧ ∃ k r, Wins d n setsColor k r ∧ r.style.color = 0

theorem colourless_iff {d : Document} {i : ℕ} : Colourless d i ↔ colorProperty.ownAt d i = none := by
  unfold Colourless Property.ownAt
  cases d.nodes[i]? with
  | none => simp
  | some n =>
    have hiff : (colorProperty.own d n = none) ↔ n.styleColor = 0 ∧ winner d n setsColor = none := by
      show (if n.styleColor ≠ 0 then _ else (winner d n setsColor).map _) = none ↔ _
      by_cases hzero : n.styleColor = 0 <;> simp [hzero]
    rw [Option.bind_some, hiff, winner_eq_none]
    simp [setsColor]

theorem ownAt_eq_zero {d : Document} {i : ℕ} : colorProperty.ownAt d i = some 0 ↔
    ∃ n, d.nodes[i]? = some n ∧ n.styleColor = 0 ∧ ∃ k r, Wins d n setsColor k r ∧ r.style.color = 0 := by
  unfold Property.ownAt
  rw [Option.bind_eq_some_iff]
  refine exists_congr fun n => and_congr_right fun _ => ?_
  show (if n.styleColor ≠ 0 then some n.styleColor else (winner d n setsColor).map _) = some 0 ↔ _
  by_cases hzero : n.styleColor = 0
  · rw [if_neg (by simpa using hzero), Option.map_eq_some_iff]
    constructor
    · rintro ⟨r, hr, hblack⟩
      obtain ⟨k, hk⟩ := winner_wins hr
      exact ⟨hzero, k, r, hk, hblack⟩
    · rintro ⟨-, k, r, hk, hblack⟩
      exact ⟨r, hk.winner_eq, hblack⟩
  · rw [if_pos hzero]
    simp [hzero]

theorem blackByRule_iff {d : Document} {chain : List ℕ} :
    BlackByRule d chain ↔ colorProperty.nearest d chain = some 0 := by
  rw [Property.nearest, List.findSome?_eq_some_iff]
  simp only [ownAt_eq_zero, ← colourless_iff]
  constructor
  · rintro ⟨before, i, after, n, hchain, hbefore, hn⟩
    exact ⟨before, i, after, hchain, ⟨n, hn⟩, hbefore⟩
  · rintro ⟨before, i, after, hchain, ⟨n, hn⟩, hbefore⟩
    exact ⟨before, i, after, n, hchain, hbefore, hn⟩

theorem baseStyle_color_ne (d : Document) (n : ℕ) : (baseStyle d n).color ≠ 0 := by
  unfold baseStyle
  simp only
  repeat' split
  all_goals decide

/-- The node of an element with an inline colour. -/
theorem asterParseHtml_inline {d₀ : Document} {h : List UInt8} {i c : ℕ} {tok : Token} {a v : List UInt8}
    (hs : (sources h)[i]? = some tok) (ha : tok.attrs = some a) (hv : attr a (ascii "style") = some v)
    (hc : finalColor v = some c) :
    ∃ q, (asterParseHtml d₀ h).2.nodes[i + 1]? = some q ∧ q.styleColor = c := by
  obtain ⟨new, hnew, hby⟩ := asterParseHtml_sources d₀ h
  have hlen := congrArg List.length hnew
  rw [List.length_map, List.length_cons, hby.length_eq] at hlen
  have hlt := (List.getElem?_eq_some_iff.mp hs).1
  have hq : (asterParseHtml d₀ h).2.nodes[i + 1]? = some _ := List.getElem?_eq_getElem (by omega)
  obtain ⟨tok', htok', d, p, hn⟩ := asterParseHtml_node hq
  obtain rfl : tok' = tok := Option.some.inj (htok'.symm.trans hs)
  refine ⟨_, hq, ?_⟩
  have hcolor := fun t => newElement_color (d := d) (p := p) (t := t) hv hc
  generalize (asterParseHtml d₀ h).2.nodes[i + 1] = q at hn
  show q.unlinked.styleColor = c
  cases tok' with
  | text raw => cases ha
  | skip => cases ha
  | close t => cases ha
  | element t a' self =>
    obtain rfl : a' = a := Option.some.inj ha
    rw [← Option.some.inj hn]
    exact hcolor t
  | style a' sheet =>
    obtain rfl : a' = a := Option.some.inj ha
    rw [← Option.some.inj hn]
    exact hcolor .style
  | script a' =>
    obtain rfl : a' = a := Option.some.inj ha
    rw [← Option.some.inj hn]
    exact hcolor .script

/-- **Inline colour wins** exactly when it is not black, or the rules make the element black anyway. -/
theorem inline_color_iff (d₀ : Document) (h : List UInt8) {i c : ℕ} {tok : Token} {a v : List UInt8}
    (hs : (sources h)[i]? = some tok) (ha : tok.attrs = some a) (hv : attr a (ascii "style") = some v)
    (hc : finalColor v = some c) :
    (resolved (asterParseHtml d₀ h).2 (i + 1)).color = c ↔
      c ≠ 0 ∨ BlackByRule (asterParseHtml d₀ h).2 ((ancestors (asterParseHtml d₀ h).2 (i + 1)).take 48) := by
  obtain ⟨q, hq, hqc⟩ : ∃ q, (asterParseHtml d₀ h).2.nodes[i + 1]? = some q ∧ q.styleColor = c :=
    asterParseHtml_inline hs ha hv hc
  have hlt := (List.getElem?_eq_some_iff.mp hq).1
  generalize (asterParseHtml d₀ h).2 = d at *
  obtain ⟨rest, hrest⟩ : ∃ rest, ancestors d (i + 1) = (i + 1) :: rest := by
    obtain ⟨k, hk⟩ : ∃ k, d.nodes.length = k + 1 := ⟨d.nodes.length - 1, by omega⟩
    rw [ancestors, hk, parentChain, hq]
    exact ⟨_, rfl⟩
  rw [resolved_eq, blackByRule_iff]
  simp only
  by_cases hzero : c = 0
  · -- the field says that there is no inline colour
    have hbase := baseStyle_color_ne d (i + 1)
    rw [hzero, or_iff_right (by simp)]
    cases colorProperty.nearest d ((ancestors d (i + 1)).take 48) with
    | none => simp [hbase]
    | some w => simp
  · have hown : colorProperty.ownAt d (i + 1) = some c := by
      rw [Property.ownAt, hq]
      show (if q.styleColor ≠ 0 then _ else _) = some c
      rw [if_pos (by rw [hqc]; exact hzero), ← hqc]
      rfl
    have hnear : colorProperty.nearest d ((ancestors d (i + 1)).take 48) = some c := by
      rw [hrest, List.take_succ_cons, Property.nearest, List.findSome?_cons, hown]
    rw [hnear]
    simp [hzero]

/-- A page with a rule for paragraphs and one whose style says that it is black. -/
def blackPage : List UInt8 := ascii "<style>p\x7bcolor:#ff0000\x7d</style><p style=\"color:black\">x"

/-- The same with a colour that is not black. -/
def bluePage : List UInt8 := ascii "<style>p\x7bcolor:#ff0000\x7d</style><p style=\"color:blue\">x"

theorem inline_color_iff_bluePage :
    (resolved (asterParseHtml .zero bluePage).2 (1 + 1)).color = 0x2468C4 ↔
      0x2468C4 ≠ 0 ∨ BlackByRule (asterParseHtml .zero bluePage).2
        ((ancestors (asterParseHtml .zero bluePage).2 (1 + 1)).take 48) :=
  inline_color_iff .zero bluePage
    (show (sources bluePage)[1]? = some (.element .p (ascii " style=\"color:blue\"") false) by decide +kernel)
    rfl (show attr (ascii " style=\"color:blue\"") (ascii "style") = some (ascii "color:blue") by decide +kernel)
    (by decide +kernel)

/-- The black paragraph is red. -/
theorem inline_color_loses : ¬ ∀ (d₀ : Document) (h : List UInt8) (i c : ℕ) (tok : Token) (a v : List UInt8),
    (sources h)[i]? = some tok → tok.attrs = some a → attr a (ascii "style") = some v →
      finalColor v = some c → (resolved (asterParseHtml d₀ h).2 (i + 1)).color = c := by
  intro hall
  have hblack := hall .zero blackPage 1 0 (.element .p (ascii " style=\"color:black\"") false)
    (ascii " style=\"color:black\"") (ascii "color:black") (by decide +kernel) rfl (by decide +kernel)
    (by decide +kernel)
  have hred : (resolved (asterParseHtml .zero blackPage).2 2).color = 0xFF0000 := by decide +kernel
  rw [hred] at hblack
  cases hblack

end Orion.Aster
