import Orion.Aster.Cascade
import Orion.Aster.Source

/-!
# Inheritance (`resolved`)

A style is resolved along the chain of ancestors, and the nearest node with a colour of its own gives the
colour (`resolved_eq`).  Rules for `*` match text nodes too, which come after their parents in the chain;
so a text has the style of its parent exactly when the last `*` rule that sets a property agrees with
what the parent has of its own (`text_style_iff`).
-/

namespace Orion.Aster

open Orion.Lib

/-! ## Along a chain -/

/-- A property that rules and inline styles set. -/
structure Property where
  inline : Node → ℕ
  sets : CssRule → Bool
  value : CssRule → ℕ

def colorProperty : Property := ⟨Node.styleColor, setsColor, (·.style.color)⟩

def scaleProperty : Property := ⟨Node.styleScale, setsScale, (·.style.scale)⟩

namespace Property

variable (P : Property) (d : Document)

/-- What a node has of its own: its inline style, or else the winner of its rules. -/
def own (n : Node) : Option ℕ :=
  if P.inline n ≠ 0 then some (P.inline n) else (winner d n P.sets).map P.value

def ownAt (i : ℕ) : Option ℕ := (d.nodes[i]?).bind (P.own d)

/-- What the first node of a chain has that has any. -/
def nearest (chain : List ℕ) : Option ℕ := chain.findSome? (P.ownAt d)

end Property

/-- The flags that a node adds. -/
def ownFlags (d : Document) (i : ℕ) : UInt8 :=
  match d.nodes[i]? with
  | none => 0
  | some q => ruleFlags d q d.css 0 ||| q.styleFlags

def chainFlags (d : Document) (chain : List ℕ) (flags : UInt8) : UInt8 :=
  chain.foldr (fun i f => f ||| ownFlags d i) flags

theorem foldl_or {α : Type*} (g : α → UInt8) (l : List α) : ∀ f : UInt8,
    l.foldl (fun f a => f ||| g a) f = f ||| l.foldl (fun f a => f ||| g a) 0 := by
  induction l with
  | nil =>
    intro f
    simp
  | cons a l ih =>
    intro f
    rw [List.foldl_cons, List.foldl_cons, ih, ih (0 ||| g a), UInt8.zero_or, UInt8.or_assoc]

theorem ruleFlags_eq (d : Document) (n : Node) (flags : UInt8) :
    ruleFlags d n d.css flags = flags ||| ruleFlags d n d.css 0 :=
  foldl_or (fun r : CssRule => r.style.flags) _ flags

/-- **One node of the chain.** -/
theorem resolveStep_eq (d : Document) (st : Style) (i : ℕ) : resolveStep d st i =
    { flags := st.flags ||| ownFlags d i
      scale := (scaleProperty.ownAt d i).getD st.scale
      colorSet := st.colorSet || (colorProperty.ownAt d i).isSome
      color := (colorProperty.ownAt d i).getD st.color } := by
  unfold resolveStep ownFlags Property.ownAt
  cases hq : d.nodes[i]? with
  | none => simp
  | some q =>
    simp only [Option.bind_some, rules_eq, ruleFlags_eq d q st.flags, UInt8.or_assoc]
    unfold Property.own
    show _ = (⟨_, (if q.styleScale ≠ 0 then some q.styleScale else ruleScale d q).getD st.scale,
      st.colorSet || (if q.styleColor ≠ 0 then some q.styleColor else ruleColor d q).isSome,
      (if q.styleColor ≠ 0 then some q.styleColor else ruleColor d q).getD st.color⟩ : Style)
    by_cases hs : q.styleScale = 0 <;> by_cases hc : q.styleColor = 0 <;> simp [hs, hc]

/-- **A whole chain**, from its end. -/
theorem resolve_chain (d : Document) (st : Style) (chain : List ℕ) :
    chain.reverse.foldl (resolveStep d) st =
      { flags := chainFlags d chain st.flags
        scale := (scaleProperty.nearest d chain).getD st.scale
        colorSet := st.colorSet || (colorProperty.nearest d chain).isSome
        color := (colorProperty.nearest d chain).getD st.color } := by
  induction chain with
  | nil => simp [chainFlags, Property.nearest]
  | cons i chain ih =>
    rw [List.reverse_cons, List.foldl_append, ih, List.foldl_cons, List.foldl_nil, resolveStep_eq]
    unfold Property.nearest
    rw [List.findSome?_cons, List.findSome?_cons]
    cases scaleProperty.ownAt d i <;> cases colorProperty.ownAt d i <;> simp [chainFlags]

theorem resolved_eq (d : Document) (n : ℕ) : resolved d n =
    { flags := chainFlags d ((ancestors d n).take 48) (baseStyle d n).flags
      scale := (scaleProperty.nearest d ((ancestors d n).take 48)).getD (baseStyle d n).scale
      colorSet := (baseStyle d n).colorSet ||
        (colorProperty.nearest d ((ancestors d n).take 48)).isSome
      color := (colorProperty.nearest d ((ancestors d n).take 48)).getD (baseStyle d n).color } :=
  resolve_chain d _ _

/-! ## Rules for everything -/

def isStar (r : CssRule) : Bool := r.kind = .any

/-- The value of the last `*` rule that sets a property. -/
def Property.star (P : Property) (d : Document) : Option ℕ :=
  ((d.css.filter fun r => isStar r && P.sets r).getLast?).map P.value

def starFlags (d : Document) : UInt8 := (d.css.filter isStar).foldl (fun f r => f ||| r.style.flags) 0

/-- A selector with a tag has one that is known, and one without matches any tag. -/
def RuleShape (tag : Option Tag) : SelectorKind → Prop
  | .any => tag = none
  | .cls => tag = none
  | .id => tag = none
  | .tag => ∃ t, tag = some t ∧ t ≠ .unknown
  | .tagCls => ∃ t, tag = some t ∧ t ≠ .unknown
  | .tagId => ∃ t, tag = some t ∧ t ≠ .unknown

/-- A node without a tag, names and an inline style, as the root and the texts are. -/
structure Plain (n : Node) : Prop where
  tag : n.tag = .unknown
  id : n.id.len = 0
  cls : n.cls.len = 0
  flags : n.styleFlags = 0
  scale : n.styleScale = 0
  color : n.styleColor = 0

theorem matchesRule_star {r : CssRule} (d : Document) (n : Node) (hs : RuleShape r.tag r.kind)
    (h : isStar r = true) : matchesRule d r n = true := by
  have hk : r.kind = .any := of_decide_eq_true h
  rw [hk] at hs
  unfold matchesRule
  rw [if_neg fun hno => hno.1 hs, hk]

/-- **A plain node matches the rules for everything, and no others.** -/
theorem matchesRule_plain {d : Document} {r : CssRule} {n : Node} (hn : Plain n)
    (hs : RuleShape r.tag r.kind) : matchesRule d r n = isStar r := by
  cases hk : r.kind with
  | any =>
    have hstar : isStar r = true := decide_eq_true hk
    rw [matchesRule_star d n hs hstar, hstar]
  | tag | tagCls | tagId =>
    rw [hk] at hs
    obtain ⟨t, ht, hne⟩ := hs
    unfold matchesRule isStar
    rw [if_pos ⟨by rw [ht]; simp, by rw [ht, hn.tag]; simpa using hne⟩, hk]
    rfl
  | cls =>
    rw [hk] at hs
    unfold matchesRule isStar hasclass
    rw [if_neg fun hno => hno.1 hs, hk, if_pos (.inl hn.cls)]
    rfl
  | id =>
    rw [hk] at hs
    unfold matchesRule isStar
    rw [if_neg fun hno => hno.1 hs, hk]
    show (decide (n.id.len ≠ 0) && _) = false
    rw [decide_eq_false (by simp [hn.id]), Bool.false_and]

section

variable {d : Document} (hrules : ∀ r ∈ d.css, RuleShape r.tag r.kind) {n : Node}

include hrules

theorem filter_plain (hn : Plain n) (sets : CssRule → Bool) :
    (d.css.filter fun r => matchesRule d r n && sets r) = d.css.filter fun r => isStar r && sets r := by
  apply List.filter_congr
  intro r hr
  rw [matchesRule_plain hn (hrules r hr)]

/-- What a plain node has of its own. -/
theorem own_plain (hn : Plain n) (P : Property) (hinline : P.inline n = 0) : P.own d n = P.star d := by
  have hconst : ∀ r ∈ d.css.filter (fun r => isStar r && P.sets r), specof r = 0 := by
    intro r hr
    have hstar := (Bool.and_eq_true _ _).mp (List.mem_filter.mp hr).2
    have hk : r.kind = .any := of_decide_eq_true hstar.1
    rw [specof, hk]
  rw [Property.own, if_neg (by simpa using hinline), winner, best, filter_plain hrules hn,
    lastMax_of_const hconst, Property.star]

/-- A node has a property of its own if a `*` rule sets it. -/
theorem own_isSome {P : Property} {v : ℕ} (h : P.star d = some v) (n : Node) : ∃ w, P.own d n = some w := by
  obtain ⟨r, hr, -⟩ := Option.map_eq_some_iff.mp h
  have hmem := List.mem_filter.mp (List.mem_of_getLast? hr)
  have hstar := (Bool.and_eq_true _ _).mp hmem.2
  unfold Property.own
  split
  · exact ⟨_, rfl⟩
  · cases hw : winner d n P.sets with
    | some r' => exact ⟨_, rfl⟩
    | none =>
      have hno := winner_eq_none.mp hw r hmem.1 (matchesRule_star d n (hrules r hmem.1) hstar.1)
      rw [hstar.2] at hno
      cases hno

end

/-- The bits of `b` are among those of `a`. -/
def Has (a b : UInt8) : Prop := a ||| b = a

theorem Has.or_left {a b c : UInt8} (h : Has a c) : Has (a ||| b) c := by
  show a ||| b ||| c = a ||| b
  rw [UInt8.or_assoc, UInt8.or_comm b, ← UInt8.or_assoc, h]

theorem Has.or_both {a b : UInt8} (h : Has a b) (c : UInt8) : Has (a ||| c) (b ||| c) := by
  show a ||| c ||| (b ||| c) = a ||| c
  rw [UInt8.or_assoc, ← UInt8.or_assoc c, UInt8.or_comm c, UInt8.or_assoc, UInt8.or_self, ← UInt8.or_assoc, h]

/-- More rules have more flags. -/
theorem has_filter {f g : CssRule → Bool} (rs : List CssRule) (h : ∀ r ∈ rs, f r = true → g r = true) :
    ∀ {a b : UInt8}, Has a b → Has ((rs.filter g).foldl (fun f r => f ||| r.style.flags) a)
      ((rs.filter f).foldl (fun f r => f ||| r.style.flags) b) := by
  induction rs with
  | nil => exact fun hab => hab
  | cons r rs ih =>
    intro a b hab
    have ih' := @ih fun r hr => h r (by simp [hr])
    rw [List.filter_cons, List.filter_cons]
    cases hf : f r with
    | true =>
      rw [h r (by simp) hf, if_pos rfl, if_pos rfl]
      exact ih' (hab.or_both _)
    | false =>
      rw [if_neg Bool.false_ne_true]
      split
      · exact ih' hab.or_left
      · exact ih' hab

theorem chainFlags_or (d : Document) (chain : List ℕ) (a b : UInt8) :
    chainFlags d chain (a ||| b) = chainFlags d chain a ||| b := by
  induction chain with
  | nil => rfl
  | cons i chain ih =>
    show chainFlags d chain (a ||| b) ||| ownFlags d i = chainFlags d chain a ||| ownFlags d i ||| b
    rw [ih, UInt8.or_assoc, UInt8.or_comm b, ← UInt8.or_assoc]

/-! ## The rules of a page -/

theorem selectorParts_shape {s name : List UInt8} {tag : Option Tag} {kind : SelectorKind}
    (h : selectorParts s = some (tag, kind, name)) : RuleShape tag kind := by
  unfold selectorParts at h
  simp only at h
  split at h
  · cases h
  split at h
  · cases h
    rfl
  split at h
  · split at h
    · cases h
    · next hknown =>
      cases h
      exact ⟨_, rfl, hknown⟩
  split at h
  · split at h
    · cases h
    · cases h
      split <;> rfl
  · split at h
    · cases h
    · next hknown =>
      cases h
      split <;> exact ⟨_, rfl, fun hno => hknown (.inl hno)⟩

/-- The rules of a document come from selectors. -/
def RulesShaped (d : Document) : Prop := ∀ r ∈ d.css, RuleShape r.tag r.kind

theorem cssadd_shaped {d : Document} (h : RulesShaped d) (s : List UInt8) (st : Style) :
    RulesShaped (cssadd d s st) := by
  unfold cssadd selector
  split
  · exact h
  cases hparts : selectorParts s with
  | none => exact h
  | some parts =>
    obtain ⟨tag, kind, name⟩ := parts
    have hshape := selectorParts_shape hparts
    have hadd : ∀ {d' : Document} (sl : Slice), d'.css = d.css →
        RulesShaped { d' with css := d'.css ++ [⟨tag, kind, sl, st⟩] } := by
      intro d' sl hcss r hr
      rcases List.mem_append.mp hr with hr | hr
      · exact h r (hcss ▸ hr)
      · rw [List.mem_singleton.mp hr]
        exact hshape
    have hcss := (storeSlice_rest d name).2
    simp only
    by_cases hname : name = []
    · rw [if_pos hname]
      exact hadd _ rfl
    · rw [if_neg hname]
      by_cases hlen : (storeSlice d name).1.len ≠ 0
      · rw [if_pos hlen]
        exact hadd _ hcss
      · rw [if_neg hlen]
        exact fun r hr => h r (hcss ▸ hr)

theorem css_shaped {d : Document} (h : RulesShaped d) (sheet : List UInt8) : RulesShaped (css d sheet) := by
  unfold css
  generalize sheetRules sheet.length sheet = rs
  induction rs generalizing d with
  | nil => exact h
  | cons r rs ih => exact ih (cssadd_shaped h r.1 r.2)

theorem applyToken_shaped {s : ParseState} (hroom : s.doc.nodes.length < asterMaxNodes)
    (h : RulesShaped s.doc) (t : Token) : RulesShaped (applyToken s t).doc := by
  have hsame : ∀ {d : Document}, d.css = s.doc.css → RulesShaped d := by
    intro d hcss r hr
    exact h r (hcss ▸ hr)
  cases t with
  | text raw => exact hsame (applyText_stores s.doc _ raw hroom).2.2
  | skip => exact h
  | close t => exact h
  | element t a self =>
    obtain ⟨-, -, -, hcss⟩ := applyElement_stores s.doc (s.stack.headD 0) t a hroom
    simp only [applyToken]
    split
    · next heq =>
      rw [heq] at hcss
      exact hsame hcss
    · next heq =>
      rw [heq] at hcss
      split <;> exact hsame hcss
  | style a sheet =>
    obtain ⟨-, -, -, hcss⟩ := applyElement_stores s.doc (s.stack.headD 0) .style a hroom
    simp only [applyToken]
    split
    · next heq =>
      rw [heq] at hcss
      exact hsame hcss
    · next heq =>
      rw [heq] at hcss
      exact css_shaped (hsame hcss) sheet
  | script a => exact hsame (applyElement_stores s.doc (s.stack.headD 0) .script a hroom).2.2.2

theorem applyAll_shaped (ts : List Token) : ∀ s : ParseState, RulesShaped s.doc →
    RulesShaped (applyAll s ts).doc := by
  induction ts with
  | nil => exact fun _ h => h
  | cons t ts ih =>
    intro s h
    rw [applyAll]
    split
    · exact h
    · exact ih _ (applyToken_shaped (by omega) h t)

theorem asterParseHtml_shaped (d : Document) (h : List UInt8) : RulesShaped (asterParseHtml d h).2 := by
  have hnone : RulesShaped (asterDocumentInit d) := fun r hr => by cases hr
  have hloop := applyAll_shaped (tokens (cstr h)) ⟨asterDocumentInit d, [0]⟩ hnone
  rw [tokens, ← parseLoop_eq_applyAll] at hloop
  unfold asterParseHtml
  simp only
  split <;> exact hloop

theorem plain_of_unlinked {q : Node} (h : Plain q.unlinked) : Plain q :=
  ⟨h.tag, h.id, h.cls, h.flags, h.scale, h.color⟩

theorem asterParseHtml_root_plain (d : Document) (h : List UInt8) {q : Node}
    (hq : (asterParseHtml d h).2.nodes[0]? = some q) : Plain q := by
  have hroot := asterParseHtml_root d h
  rw [hq] at hroot
  apply plain_of_unlinked
  rw [Option.some.inj hroot]
  exact ⟨rfl, rfl, rfl, rfl, rfl, rfl⟩

theorem tokenNode_plain {d : Document} {p : ℕ} {t : Token} {n : Node} (h : tokenNode d p t = some n)
    (htype : n.type = .text) : Plain n := by
  have helement : ∀ (t : Tag) (a : List UInt8), (newElement d p t a).type = .element :=
    fun t a => congrArg Node.type (attrs_new d p t none none a)
  cases t with
  | text raw =>
    rw [tokenNode] at h
    split at h
    · cases h
    · rw [← Option.some.inj h]
      exact ⟨rfl, rfl, rfl, rfl, rfl, rfl⟩
  | skip => cases h
  | close t => cases h
  | element t a self =>
    rw [← Option.some.inj h, helement] at htype
    cases htype
  | style a sheet =>
    rw [← Option.some.inj h, helement] at htype
    cases htype
  | script a =>
    rw [← Option.some.inj h, helement] at htype
    cases htype

/-- The texts of a page are plain, and so is its root. -/
theorem asterParseHtml_text_plain (d : Document) (h : List UInt8) {i : ℕ} {q : Node}
    (hq : (asterParseHtml d h).2.nodes[i]? = some q) (ht : q.type = .text) : Plain q := by
  cases i with
  | zero => exact asterParseHtml_root_plain d h hq
  | succ i =>
    obtain ⟨t, -, d', p, ht'⟩ := asterParseHtml_node hq
    exact plain_of_unlinked (tokenNode_plain ht' ht)

/-! ## Texts and their parents -/

/-- What a node has of its own agrees with the last `*` rule that sets the property: the inline value if
there is one, or else the value of the rule that wins. -/
def Property.Agrees (P : Property) (d : Document) (n : Node) : Prop :=
  ∀ v, P.star d = some v →
    (P.inline n ≠ 0 → P.inline n = v) ∧ (P.inline n = 0 → ∀ i r, Wins d n P.sets i r → P.value r = v)

theorem agrees_iff {d : Document} (hrules : RulesShaped d) (P : Property) (n : Node) :
    P.Agrees d n ↔ ∀ v, P.star d = some v → P.own d n = some v := by
  refine forall_congr' fun v => imp_congr_right fun hv => ?_
  obtain ⟨w, hw⟩ := own_isSome hrules hv n
  by_cases hinline : P.inline n = 0
  · rw [Property.own, if_neg (by simpa using hinline)] at hw
    rw [Property.own, if_neg (by simpa using hinline), hw]
    obtain ⟨r, hr, hval⟩ := Option.map_eq_some_iff.mp hw
    constructor
    · rintro ⟨-, hwins⟩
      obtain ⟨i, hi⟩ := winner_wins hr
      rw [← hval, hwins hinline i r hi]
    · intro hwv
      refine ⟨fun hne => absurd hinline hne, fun _ i r' hr' => ?_⟩
      have hsame : r' = r := Option.some.inj (hr'.winner_eq.symm.trans hr)
      rw [hsame, hval]
      exact Option.some.inj hwv
  · rw [Property.own, if_pos hinline, Option.some.injEq]
    exact ⟨fun h => h.1 hinline, fun h => ⟨fun _ => h, fun hzero => absurd hzero hinline⟩⟩

section

variable {d : Document} (hrules : RulesShaped d) {p : ℕ} {n : Node} (hn : d.nodes[p]? = some n)

include hrules hn

/-- The root at the end of a chain adds nothing to what the nodes before it have. -/
theorem nearest_root {P : Property} (hroot : P.ownAt d 0 = P.star d) (chain : List ℕ) :
    P.nearest d (p :: chain ++ [0]) = P.nearest d (p :: chain) := by
  have hp : P.ownAt d p = P.own d n := by
    rw [Property.ownAt, hn]
    rfl
  unfold Property.nearest
  rw [List.findSome?_append]
  cases hstar : P.star d with
  | none =>
    have hempty : [0].findSome? (P.ownAt d) = none := by
      rw [List.findSome?_cons, hroot, hstar]
      rfl
    rw [hempty, Option.or_none]
  | some v =>
    obtain ⟨w, hw⟩ := own_isSome hrules hstar n
    simp [List.findSome?_cons, hp, hw]

/-- A text in front of a chain overrides it with the last `*` rule. -/
theorem nearest_text {P : Property} {t : ℕ} (ht : P.ownAt d t = P.star d) (chain : List ℕ) (old : ℕ) :
    (P.nearest d (t :: p :: chain)).getD old = (P.nearest d (p :: chain)).getD old ↔
      ∀ v, P.star d = some v → P.own d n = some v := by
  have hp : P.ownAt d p = P.own d n := by
    rw [Property.ownAt, hn]
    rfl
  unfold Property.nearest
  rw [List.findSome?_cons, ht]
  cases hstar : P.star d with
  | none => simp
  | some v =>
    obtain ⟨w, hw⟩ := own_isSome hrules hstar n
    rw [List.findSome?_cons, hp, hw]
    simp [eq_comm]

theorem nearest_text_isSome {P : Property} {t : ℕ} (ht : P.ownAt d t = P.star d) (chain : List ℕ) :
    (P.nearest d (t :: p :: chain)).isSome = (P.nearest d (p :: chain)).isSome := by
  have hp : P.ownAt d p = P.own d n := by
    rw [Property.ownAt, hn]
    rfl
  unfold Property.nearest
  rw [List.findSome?_cons, ht]
  cases hstar : P.star d with
  | none => rfl
  | some v =>
    obtain ⟨w, hw⟩ := own_isSome hrules hstar n
    rw [List.findSome?_cons, hp, hw]
    rfl

/-- A chain that begins with an element has the flags of the `*` rules. -/
theorem chainFlags_has (chain : List ℕ) (flags : UInt8) :
    Has (chainFlags d (p :: chain) flags) (starFlags d) := by
  have hstar : Has (ruleFlags d n d.css 0) (starFlags d) :=
    has_filter d.css (fun r hr h => matchesRule_star d n (hrules r hr) h) UInt8.or_self
  show chainFlags d chain flags ||| ownFlags d p ||| starFlags d = chainFlags d chain flags ||| ownFlags d p
  rw [ownFlags, hn]
  simp only
  rw [UInt8.or_assoc, hstar.or_left]

end

theorem ownFlags_plain {d : Document} (hrules : RulesShaped d) {i : ℕ} {q : Node}
    (hq : d.nodes[i]? = some q) (hplain : Plain q) : ownFlags d i = starFlags d := by
  have hfilter : d.css.filter (matchesRule d · q) = d.css.filter isStar :=
    List.filter_congr fun r hr => matchesRule_plain hplain (hrules r hr)
  rw [ownFlags, hq]
  simp only
  rw [ruleFlags, hfilter, hplain.flags, UInt8.or_zero, starFlags]

theorem ownAt_plain {d : Document} (hrules : RulesShaped d) {i : ℕ} {q : Node}
    (hq : d.nodes[i]? = some q) (hplain : Plain q) (P : Property) (hinline : P.inline q = 0) :
    P.ownAt d i = P.star d := by
  rw [Property.ownAt, hq]
  exact own_plain hrules hplain P hinline

theorem inh_text {d : Document} {t p : ℕ} {q : Node} (hq : d.nodes[t]? = some q) (hplain : Plain q)
    (hchain : ancestors d t = t :: ancestors d p) {tag : Tag} (htag : tag ≠ .unknown) :
    inh d t tag = inh d p tag := by
  have ht : tagOf d t = .unknown := by
    rw [tagOf, hq]
    exact hplain.tag
  rw [inh, hchain, List.any_cons, ht, decide_eq_false (Ne.symm htag), Bool.false_or]
  rfl

theorem baseStyle_text {d : Document} {t p : ℕ} {q : Node} (hq : d.nodes[t]? = some q) (hplain : Plain q)
    (hchain : ancestors d t = t :: ancestors d p) : baseStyle d t = baseStyle d p := by
  unfold baseStyle
  have hinh : ∀ tag : Tag, tag ≠ .unknown → inh d t tag = inh d p tag :=
    fun _ htag => inh_text hq hplain hchain htag
  rw [hinh .h1 (by decide), hinh .h2 (by decide), hinh .h3 (by decide), hinh .strong (by decide),
    hinh .code (by decide)]

/-- The two chains of a text and its parent, cut at 48 entries: what the cut takes from the text is the
root. -/
theorem chains_text {d : Document} (htree : Tree d.nodes) {t p : ℕ} (hp : p < d.nodes.length)
    (hchain : ancestors d t = t :: ancestors d p) (hshort : (ancestors d p).length ≤ 48) :
    ∃ chain, (ancestors d t).take 48 = t :: p :: chain ∧
      ((ancestors d p).take 48 = p :: chain ∨ (ancestors d p).take 48 = p :: chain ++ [0]) := by
  obtain ⟨rest, hrest⟩ : ∃ rest, ancestors d p = p :: rest := by
    have hfuel : ∃ k, d.nodes.length = k + 1 := ⟨d.nodes.length - 1, by omega⟩
    obtain ⟨k, hk⟩ := hfuel
    rw [ancestors, hk, parentChain, List.getElem?_eq_getElem hp]
    exact ⟨_, rfl⟩
  have hlast := ancestors_getLast htree hp
  rw [hchain, List.take_succ_cons, List.take_of_length_le hshort]
  rw [hrest] at hshort hlast ⊢
  by_cases hfull : rest.length = 47
  · obtain ⟨init, last, rfl⟩ : ∃ init last, rest = init ++ [last] :=
      ⟨_, _, (List.dropLast_append_getLast (by rintro rfl; simp at hfull)).symm⟩
    have hzero : last = 0 := by
      rw [← List.cons_append, List.getLast?_concat] at hlast
      exact Option.some.inj hlast
    subst hzero
    refine ⟨init, ?_, .inr rfl⟩
    have hinit : init.length = 46 := by simpa using hfull
    rw [List.take_succ_cons, List.take_append_of_le_length (by omega), List.take_of_length_le (by omega)]
  · refine ⟨rest, ?_, .inl rfl⟩
    rw [List.length_cons] at hshort
    rw [List.take_of_length_le (by rw [List.length_cons]; omega)]

/-- **Text takes its parent's style** exactly when the last `*` rule that sets the colour, and the last
that sets the scale, agree with what the parent has of its own; the flags and the marker of the colour are
always the same. -/
theorem text_style_iff (d₀ : Document) (h : List UInt8) {t p : ℕ} {q n : Node}
    (hq : (asterParseHtml d₀ h).2.nodes[t]? = some q) (htext : q.type = .text) (hqp : q.parent = some p)
    (hn : (asterParseHtml d₀ h).2.nodes[p]? = some n) :
    resolved (asterParseHtml d₀ h).2 t = resolved (asterParseHtml d₀ h).2 p ↔
      colorProperty.Agrees (asterParseHtml d₀ h).2 n ∧ scaleProperty.Agrees (asterParseHtml d₀ h).2 n := by
  have htree := asterParseHtml_tree d₀ h
  have hrules := asterParseHtml_shaped d₀ h
  have hplain := asterParseHtml_text_plain d₀ h hq htext
  obtain ⟨hchain, hshort⟩ := asterParseHtml_depth d₀ h hq hqp
  obtain ⟨root, hroot⟩ : ∃ root, (asterParseHtml d₀ h).2.nodes[0]? = some root :=
    ⟨_, List.getElem?_eq_getElem htree.length_pos⟩
  have hrootp := asterParseHtml_root_plain d₀ h hroot
  generalize (asterParseHtml d₀ h).2 = d at *
  have hbase := baseStyle_text hq hplain hchain
  have hcolor := ownAt_plain hrules hq hplain colorProperty hplain.color
  have hscale := ownAt_plain hrules hq hplain scaleProperty hplain.scale
  have hrcolor := ownAt_plain hrules hroot hrootp colorProperty hrootp.color
  have hrscale := ownAt_plain hrules hroot hrootp scaleProperty hrootp.scale
  obtain ⟨chain, htchain, hpchain⟩ :=
    chains_text htree (List.getElem?_eq_some_iff.mp hn).1 hchain hshort
  have hhas := chainFlags_has hrules hn chain (baseStyle d p).flags
  -- the parent's values do not depend on whether its chain ends with the root
  have hpflags : chainFlags d ((ancestors d p).take 48) (baseStyle d p).flags =
      chainFlags d (p :: chain) (baseStyle d p).flags := by
    rcases hpchain with heq | heq
    · rw [heq]
    · rw [heq, chainFlags, List.foldr_append]
      show chainFlags d (p :: chain) ((baseStyle d p).flags ||| ownFlags d 0) = _
      rw [chainFlags_or, ownFlags_plain hrules hroot hrootp, hhas]
  have hpnear : ∀ P : Property, P.ownAt d 0 = P.star d →
      P.nearest d ((ancestors d p).take 48) = P.nearest d (p :: chain) := by
    intro P hP
    rcases hpchain with heq | heq
    · rw [heq]
    · rw [heq, nearest_root hrules hn hP]
  have htflags : chainFlags d (t :: p :: chain) (baseStyle d p).flags =
      chainFlags d (p :: chain) (baseStyle d p).flags := by
    show chainFlags d (p :: chain) (baseStyle d p).flags ||| ownFlags d t = _
    rw [ownFlags_plain hrules hq hplain, hhas]
  rw [resolved_eq, resolved_eq, htchain, hbase, hpflags, hpnear _ hrcolor, hpnear _ hrscale, htflags,
    Style.mk.injEq, nearest_text_isSome hrules hn hcolor, nearest_text hrules hn hcolor,
    nearest_text hrules hn hscale, agrees_iff hrules, agrees_iff hrules]
  simp only [true_and]
  exact and_comm

/-- A page with a `*` rule and a rule for paragraphs. -/
def starPage : List UInt8 := ascii "<style>*\x7bcolor:#111111\x7dp\x7bcolor:#222222\x7d</style><p>x"

theorem starPage_text : ((asterParseHtml .zero starPage).2.nodes[3]?).map (fun q => (q.type, q.parent)) =
    some (.text, some 2) := by
  decide +kernel

theorem text_style_iff_starPage :
    ∃ n, (asterParseHtml .zero starPage).2.nodes[2]? = some n ∧
      (resolved (asterParseHtml .zero starPage).2 3 = resolved (asterParseHtml .zero starPage).2 2 ↔
        colorProperty.Agrees (asterParseHtml .zero starPage).2 n ∧
          scaleProperty.Agrees (asterParseHtml .zero starPage).2 n) := by
  obtain ⟨q, hq, hqt⟩ := Option.map_eq_some_iff.mp starPage_text
  have hlt : 2 < (asterParseHtml .zero starPage).2.nodes.length := by decide +kernel
  have hn := List.getElem?_eq_getElem hlt
  exact ⟨_, hn, text_style_iff .zero starPage hq (congrArg Prod.fst hqt) (congrArg Prod.snd hqt) hn⟩

/-- The text of the paragraph is drawn in the colour for everything. -/
theorem text_style_differs : ¬ ∀ (d₀ : Document) (h : List UInt8) (t p : ℕ) (q : Node),
    (asterParseHtml d₀ h).2.nodes[t]? = some q → q.type = .text → q.parent = some p →
      resolved (asterParseHtml d₀ h).2 t = resolved (asterParseHtml d₀ h).2 p := by
  intro hall
  obtain ⟨q, hq, hqt⟩ := Option.map_eq_some_iff.mp starPage_text
  have hsame := hall .zero starPage 3 2 q hq (congrArg Prod.fst hqt) (congrArg Prod.snd hqt)
  have hne : resolved (asterParseHtml .zero starPage).2 3 ≠ resolved (asterParseHtml .zero starPage).2 2 := by
    decide +kernel
  exact hne hsame

end Orion.Aster
