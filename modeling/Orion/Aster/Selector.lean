import Orion.Aster.Pool
import Orion.Aster.Tokens
import Orion.Lib.Words

/-!
# Selectors (`selector`, `matches`)

A selector is a list of simple parts: a tag name, and a class or an id for every `.` and `#`
(`simpleParts`).  The source splits it at its first mark only and keeps the rest as one name, so that a
rule means what its parts say exactly when the selector has one mark at most (`selector_means_iff`).
-/

namespace Orion.Aster

open Orion.Lib

/-! ## What a selector says -/

inductive SimplePart where
  | tag (name : List UInt8)
  | cls (name : List UInt8)
  | id (name : List UInt8)
  deriving Repr, DecidableEq

/-- Everything from a mark to the next is a part. -/
def partsStep (c : UInt8) (r : List SimplePart × List UInt8) : List SimplePart × List UInt8 :=
  if c = 46 then (.cls r.2 :: r.1, []) else if c = 35 then (.id r.2 :: r.1, []) else (r.1, c :: r.2)

/-- The simple parts of a selector. -/
def simpleParts (s : List UInt8) : List SimplePart :=
  let r := s.foldr partsStep ([], [])
  if r.2 = [] then r.1 else .tag r.2 :: r.1

/-- What a part says about an element; `*` stands for every tag. -/
def SimplePart.Holds (tag : Tag) (id cls : List UInt8) : SimplePart → Prop
  | .tag name => name = [42] ∨ tagid name = tag
  | .cls name => name ∈ words sp cls
  | .id name => id = name

/-- The rule holds for an element exactly if all parts of the selector do, for every element with its
names in the text of the document or of a later one. -/
def MeansParts (d : Document) (r : CssRule) (s : List UInt8) : Prop :=
  ∀ (D : Document) (n : Node), d.text <+: D.text → D.text.length ≤ asterTextCap - 1 →
    n.id.off + n.id.len ≤ D.text.length → n.cls.off + n.cls.len ≤ D.text.length →
    (matchesRule D r n = true ↔
      ∀ part ∈ simpleParts s, part.Holds n.tag (D.bytes n.id.toSpan) (D.bytes n.cls.toSpan))

/-! ## Parts -/

theorem partsStep_mark {m : UInt8} (hm : selectorMark m = true) (r : List SimplePart × List UInt8) :
    partsStep m r = ((if m = 46 then .cls r.2 else .id r.2) :: r.1, []) := by
  rcases Bool.or_eq_true .. |>.mp hm with h | h
  · have hm : m = 46 := of_decide_eq_true h
    subst hm
    rfl
  · have hm : m = 35 := of_decide_eq_true h
    subst hm
    rfl

theorem partsStep_name {c : UInt8} (hc : selectorMark c = false) (r : List SimplePart × List UInt8) :
    partsStep c r = (r.1, c :: r.2) := by
  have h := Bool.or_eq_false_iff.mp hc
  rw [partsStep, if_neg (of_decide_eq_false h.1), if_neg (of_decide_eq_false h.2)]

theorem foldr_name {head : List UInt8} (hhead : ∀ c ∈ head, selectorMark c = false)
    (r : List SimplePart × List UInt8) : head.foldr partsStep r = (r.1, head ++ r.2) := by
  induction head with
  | nil => rfl
  | cons c head ih =>
    rw [List.foldr_cons, ih fun c hc => hhead c (by simp [hc]), partsStep_name (hhead c (by simp))]
    rfl

theorem simpleParts_tag {s : List UInt8} (hne : s ≠ []) (hs : ∀ c ∈ s, selectorMark c = false) :
    simpleParts s = [.tag s] := by
  unfold simpleParts
  rw [foldr_name hs, List.append_nil]
  simp only
  rw [if_neg hne]

/-- The name behind a mark, as far as the next one. -/
theorem simpleParts_mark {head : List UInt8} (hhead : ∀ c ∈ head, selectorMark c = false) {m : UInt8}
    (hm : selectorMark m = true) {name : List UInt8} (hname : ∀ c ∈ name, selectorMark c = false)
    (rest : List UInt8) (hrest : ∀ c ∈ rest.head?, selectorMark c = true) :
    simpleParts (head ++ m :: (name ++ rest)) =
      (if head = [] then [] else [.tag head]) ++ (if m = 46 then .cls name else .id name) ::
        (rest.foldr partsStep ([], [])).1 := by
  have hnone : (rest.foldr partsStep ([], [])).2 = [] := by
    cases rest with
    | nil => rfl
    | cons c rest => rw [List.foldr_cons, partsStep_mark (hrest c rfl)]
  unfold simpleParts
  rw [List.foldr_append, foldr_name hhead, List.foldr_cons, List.foldr_append, foldr_name hname,
    partsStep_mark hm, hnone, List.append_nil, List.append_nil]
  simp only
  split <;> rfl

/-! ## Names -/

/-- The scan over the words of a class attribute. -/
theorem hasclassLoop_iff {name : List UInt8} (hne : name ≠ []) : ∀ {fuel : ℕ} {s : List UInt8},
    s.length ≤ fuel → (hasclassLoop name fuel s = true ↔ name ∈ words sp s) := by
  intro fuel
  induction fuel with
  | zero =>
    intro s h
    obtain rfl : s = [] := List.length_eq_zero_iff.mp (by omega)
    simp [hasclassLoop]
  | succ fuel ih =>
    intro s h
    rw [hasclassLoop]
    by_cases hs : s = []
    · rw [if_pos hs, hs]
      simp
    rw [if_neg hs, ← words_dropWhile s]
    simp only
    have hlen := length_dropWhile_le sp s
    have hstop := List.head?_dropWhile_not sp s
    generalize s.dropWhile sp = t at hlen hstop ⊢
    cases t with
    | nil =>
      rw [List.takeWhile_nil, if_neg (Ne.symm hne), List.dropWhile_nil]
      exact ih (by simp)
    | cons c t =>
      have hc : sp c = false := by simpa using hstop
      have hshort : ((c :: t).dropWhile (!sp ·)).length ≤ fuel := by
        rw [List.dropWhile_cons_of_pos (by rw [hc]; rfl)]
        have hle := length_dropWhile_le (!sp ·) t
        rw [List.length_cons] at hlen
        omega
      rw [words_eq hc, List.mem_cons, ← ih hshort, eq_comm (a := name)]
      split
      · next heq => simp [heq]
      · next heq => simp [heq]

section

variable {D : Document} {n : Node} {r : CssRule} {name : List UInt8} (hne : name ≠ [])
  (hcap : D.text.length ≤ asterTextCap - 1) (hslice : r.selector.off + r.selector.len ≤ D.text.length)
  (hbytes : D.bytes r.selector.toSpan = name)

include hne hcap hbytes

theorem hasclass_iff (hcls : n.cls.off + n.cls.len ≤ D.text.length) :
    hasclass D n r = true ↔ name ∈ words sp (D.bytes n.cls.toSpan) := by
  have hcapv : asterTextCap = 24576 := rfl
  by_cases hzero : n.cls.len = 0
  · have hempty : D.bytes n.cls.toSpan = [] := List.length_eq_zero_iff.mp (by rw [length_bytes, hzero])
    rw [hasclass, if_pos (.inl hzero), hempty]
    simp
  · rw [hasclass, if_neg (by omega), hbytes]
    exact hasclassLoop_iff hne (by rw [length_bytes])

include hslice

theorem idMatch_iff (hid : n.id.off + n.id.len ≤ D.text.length) :
    (n.id.len ≠ 0 && teq D n.id.toSpan r.selector.toSpan) = true ↔ D.bytes n.id.toSpan = name := by
  have hcapv : asterTextCap = 24576 := rfl
  have hlen : r.selector.len = name.length := by rw [← hbytes, length_bytes]
  have hpos := List.length_pos_of_ne_nil hne
  unfold teq
  rw [hbytes, Bool.and_eq_true, decide_eq_true_eq, decide_eq_true_eq]
  constructor
  · exact fun h => h.2.2.2.2
  · intro h
    have hidlen : n.id.len = name.length := by rw [← h, length_bytes]
    exact ⟨by omega, by rw [hidlen, hlen], by omega, by omega, h⟩

end

/-! ## Accepted selectors -/

/-- Everything a selector with a mark can be: the tag before the mark, if any, and the name behind it. -/
structure Marked (t : List UInt8) (tag : Option Tag) (kind : SelectorKind) (head : List UInt8) (m : UInt8)
    (name : List UInt8) : Prop where
  text_eq : t = head ++ m :: name
  noMark : ∀ c ∈ head, selectorMark c = false
  mark : selectorMark m = true
  nonempty : name ≠ []
  solid : ∀ c ∈ name, sp c = false
  tag_eq : tag = if head = [] then none else some (tagid head)
  known : head ≠ [] → tagid head ≠ .unknown
  kind_eq : kind = if m = 46 then (if head = [] then .cls else .tagCls) else if head = [] then .id else .tagId

/-- **The selectors that are accepted.** -/
theorem selectorParts_cases {s name : List UInt8} {tag : Option Tag} {kind : SelectorKind}
    (h : selectorParts s = some (tag, kind, name)) :
    (trimSp s = [42] ∧ tag = none ∧ kind = .any ∧ name = []) ∨
    (trimSp s ≠ [] ∧ trimSp s ≠ [42] ∧ (∀ c ∈ trimSp s, selectorMark c = false) ∧
      tag = some (tagid (trimSp s)) ∧ kind = .tag ∧ name = []) ∨
    ∃ head m, Marked (trimSp s) tag kind head m name := by
  unfold selectorParts at h
  simp only at h
  generalize trimSp s = t at h ⊢
  split at h
  · cases h
  next hsimple =>
  obtain ⟨hne, hsimple⟩ := not_or.mp hsimple
  split at h
  · next hstar =>
    cases h
    exact .inl ⟨hstar, rfl, rfl, rfl⟩
  next hstar =>
  have hsplit := List.takeWhile_append_dropWhile (p := (!selectorMark ·)) (l := t)
  have hhead : ∀ c ∈ t.takeWhile (!selectorMark ·), selectorMark c = false := fun c hc => by
    simpa using List.mem_takeWhile_imp hc
  have hstop := List.head?_dropWhile_not (!selectorMark ·) t
  generalize t.takeWhile (!selectorMark ·) = head at *
  split at h
  · next hnone =>
    rw [hnone, List.append_nil] at hsplit
    split at h
    · cases h
    · cases h
      exact .inr (.inl ⟨hne, hstar, hsplit ▸ hhead, rfl, rfl, rfl⟩)
  · next m name' hsome =>
    rw [hsome] at hsplit hstop
    have hm : selectorMark m = true := by simpa using hstop
    have hsolid : ∀ c ∈ name', sp c = false := by
      intro c hc
      by_contra hblank
      refine hsimple (List.any_eq_true.mpr ⟨c, ?_, ?_⟩)
      · rw [← hsplit]
        simp [hc]
      · have hsp : sp c = true := by simpa using hblank
        simp [complexSelectorChar, hsp]
    refine .inr (.inr ⟨head, m, ?_⟩)
    split at h
    · next hempty =>
      split at h
      · cases h
      · next hname =>
        cases h
        refine ⟨hsplit.symm, hhead, hm, hname, hsolid, ?_, fun h => absurd hempty h, ?_⟩
        · rw [if_pos hempty]
        · rw [if_pos hempty, if_pos hempty]
    · next hempty =>
      split at h
      · cases h
      · next hok =>
        obtain ⟨hknown, hname⟩ := not_or.mp hok
        cases h
        refine ⟨hsplit.symm, hhead, hm, hname, hsolid, ?_, fun _ => hknown, ?_⟩
        · rw [if_neg hempty]
        · rw [if_neg hempty, if_neg hempty]

/-- What a rule with a mark matches. -/
theorem Marked.matches_iff {t head name : List UInt8} {tag : Option Tag} {kind : SelectorKind} {m : UInt8}
    (h : Marked t tag kind head m name) {D : Document} {n : Node} {slice : Slice} {st : Style}
    (hcap : D.text.length ≤ asterTextCap - 1) (hslice : slice.off + slice.len ≤ D.text.length)
    (hbytes : D.bytes slice.toSpan = name) (hid : n.id.off + n.id.len ≤ D.text.length)
    (hcls : n.cls.off + n.cls.len ≤ D.text.length) :
    matchesRule D ⟨tag, kind, slice, st⟩ n = true ↔ (head ≠ [] → tagid head = n.tag) ∧
      (if m = 46 then SimplePart.cls name else .id name).Holds n.tag (D.bytes n.id.toSpan)
        (D.bytes n.cls.toSpan) := by
  have hclass := hasclass_iff (r := ⟨tag, kind, slice, st⟩) h.nonempty hcap hbytes hcls
  have hident := idMatch_iff (r := ⟨tag, kind, slice, st⟩) h.nonempty hcap hslice hbytes hid
  have hguard : (tag ≠ none ∧ tag ≠ some n.tag) ↔ ¬ (head ≠ [] → tagid head = n.tag) := by
    rw [h.tag_eq]
    by_cases hempty : head = [] <;> simp [hempty]
  unfold matchesRule
  rw [h.kind_eq] at hclass hident ⊢
  by_cases htag : head ≠ [] → tagid head = n.tag
  · rw [if_neg (by simp only [hguard]; exact not_not.mpr htag)]
    by_cases hm : m = 46
    · simp only [if_pos hm, SimplePart.Holds] at hclass ⊢
      rw [← hclass]
      by_cases hempty : head = [] <;> simp [hempty, htag]
    · simp only [if_neg hm, SimplePart.Holds] at hident ⊢
      rw [← hident]
      by_cases hempty : head = [] <;> simp [hempty, htag]
  · rw [if_pos (hguard.mpr htag)]
    simp [htag]

/-- The name of an accepted selector is stored, and stays in later documents. -/
theorem selector_cases {d d' : Document} {s : List UInt8} {tag : Option Tag} {kind : SelectorKind}
    {slice : Slice} (h : selector d s = (some (tag, kind, slice), d')) :
    ∃ name, selectorParts s = some (tag, kind, name) ∧
      (name ≠ [] → slice = (storeSlice d name).1 ∧ d' = (storeSlice d name).2) := by
  unfold selector at h
  cases hparts : selectorParts s with
  | none =>
    rw [hparts] at h
    cases h
  | some parts =>
    obtain ⟨tag', kind', name⟩ := parts
    rw [hparts] at h
    simp only at h
    by_cases hname : name = []
    · rw [if_pos hname] at h
      cases h
      exact ⟨name, rfl, fun hne => absurd hname hne⟩
    · rw [if_neg hname] at h
      split at h
      · cases h
        exact ⟨name, rfl, fun _ => ⟨rfl, rfl⟩⟩
      · cases h

theorem held_of_room {d D : Document} {name : List UInt8}
    (hroom : d.text.length + name.length ≤ asterTextCap - 1) (hne : name ≠ [])
    (hpre : (storeSlice d name).2.text <+: D.text) (hcap : D.text.length ≤ asterTextCap - 1) :
    (storeSlice d name).1.off + (storeSlice d name).1.len ≤ D.text.length ∧
      D.bytes (storeSlice d name).1.toSpan = name := by
  have hcapv : asterTextCap = 24576 := rfl
  have hafter : After (poolAfter d.text name) D := ⟨store_text d name ▸ hpre, hcap⟩
  have hlen : (storeSlice d name).1.len ≠ 0 := by
    have hpos := List.length_pos_of_ne_nil hne
    show name.length % 2 ^ 16 ≠ 0
    rw [Nat.mod_eq_of_lt (by omega)]
    omega
  have hheld := (held_storeSlice_iff hafter).mpr (.inr (.inl hroom)) hlen
  exact ⟨hheld.1, hheld.2.2⟩

theorem countP_mark_zero {s : List UInt8} (h : ∀ c ∈ s, selectorMark c = false) :
    s.countP selectorMark = 0 := by
  rw [List.countP_eq_zero]
  intro c hc
  rw [h c hc]
  exact Bool.false_ne_true

/-- An element that has one name as its id and as its class. -/
def elementNamed (t : Tag) (name : Slice) : Node :=
  { Node.new none .element t .none with id := name, cls := name }

section

variable {d' : Document} {t head name : List UInt8} {tag : Option Tag} {kind : SelectorKind} {m : UInt8}
  {slice : Slice} (hm : Marked t tag kind head m name)
  (hheld : ∀ D : Document, d'.text <+: D.text → D.text.length ≤ asterTextCap - 1 →
    slice.off + slice.len ≤ D.text.length ∧ D.bytes slice.toSpan = name)

include hm

theorem Marked.countP_eq : t.countP selectorMark = 1 + name.countP selectorMark := by
  rw [hm.text_eq, List.countP_append, List.countP_cons_of_pos hm.mark, countP_mark_zero hm.noMark]
  omega

include hheld

/-- A class or an id with no further mark. -/
theorem Marked.means (hname : ∀ c ∈ name, selectorMark c = false) (st : Style) :
    MeansParts d' ⟨tag, kind, slice, st⟩ t := by
  have hunknown : head ≠ [] → head ≠ [42] := by
    intro hne hstar
    exact hm.known hne (by rw [hstar]; decide)
  have hsimple := simpleParts_mark hm.noMark hm.mark hname [] (by simp)
  rw [List.append_nil, ← hm.text_eq] at hsimple
  intro D n hpre hcap hid hcls
  obtain ⟨hin, hbytes⟩ := hheld D hpre hcap
  rw [hsimple, hm.matches_iff hcap hin hbytes hid hcls, List.forall_mem_append, List.foldr_nil,
    List.forall_mem_singleton]
  refine and_congr_left fun _ => ?_
  by_cases hempty : head = []
  · simp [hempty]
  · simp [hempty, SimplePart.Holds, hunknown hempty]

/-- Behind a further mark: the whole name as a class or an id matches, though no part of it is the whole. -/
theorem Marked.not_means {first rest : List UInt8} {c : UInt8} (hsplit : first ++ c :: rest = name)
    (hfirst : ∀ x ∈ first, selectorMark x = false) (hc : selectorMark c = true)
    (hcap : d'.text.length ≤ asterTextCap - 1) (st : Style) : ¬ MeansParts d' ⟨tag, kind, slice, st⟩ t := by
  intro hall
  obtain ⟨hin, hbytes⟩ := hheld d' List.prefix_rfl hcap
  have hword : words sp name = [name] := by
    rw [words_word hm.solid, if_neg]
    simpa using hm.nonempty
  have hmatch : matchesRule d' ⟨tag, kind, slice, st⟩ (elementNamed (tagid head) slice) = true := by
    rw [hm.matches_iff hcap hin hbytes hin hin]
    refine ⟨fun _ => rfl, ?_⟩
    show SimplePart.Holds _ (d'.bytes slice.toSpan) (d'.bytes slice.toSpan) _
    rw [hbytes]
    split
    · show name ∈ words sp name
      rw [hword, List.mem_singleton]
    · rfl
  have hsimple := simpleParts_mark hm.noMark hm.mark hfirst (c :: rest) (by simpa using hc)
  rw [hsplit, ← hm.text_eq] at hsimple
  have hpart : (if m = 46 then SimplePart.cls first else .id first).Holds (tagid head) name name := by
    have hpart := (hall d' (elementNamed (tagid head) slice) List.prefix_rfl hcap hin hin).mp hmatch
      (if m = 46 then .cls first else .id first) (by simp [hsimple])
    rw [← hbytes]
    exact hpart
  have hsame : first = name := by
    split at hpart
    · have hmem : first ∈ words sp name := hpart
      rwa [hword, List.mem_singleton] at hmem
    · exact Eq.symm hpart
  have hlen := congrArg List.length hsplit
  rw [hsame, List.length_append, List.length_cons] at hlen
  omega

end

/-- **Accepted selectors mean what they say** exactly when they have one mark at most. -/
theorem selector_means_iff {d d' : Document} {s : List UInt8} {tag : Option Tag} {kind : SelectorKind}
    {slice : Slice} (st : Style) (h : selector d s = (some (tag, kind, slice), d'))
    (hroom : d.text.length + s.length ≤ asterTextCap - 1) :
    MeansParts d' ⟨tag, kind, slice, st⟩ (trimSp s) ↔ (trimSp s).countP selectorMark ≤ 1 := by
  obtain ⟨name, hparts, hstore⟩ := selector_cases h
  rcases selectorParts_cases hparts with
    ⟨hstar, rfl, rfl, rfl⟩ | ⟨hne, hnstar, hmarks, rfl, rfl, rfl⟩ | ⟨head, m, hm⟩
  · -- everything
    rw [hstar]
    refine iff_of_true ?_ (by decide)
    intro D n _ _ _ _
    rw [simpleParts_tag (List.cons_ne_nil _ _) (List.forall_mem_singleton.mpr rfl)]
    simp [matchesRule, SimplePart.Holds]
  · -- a tag
    refine iff_of_true ?_ (by rw [countP_mark_zero hmarks]; omega)
    intro D n _ _ _ _
    rw [simpleParts_tag hne hmarks]
    simp [matchesRule, SimplePart.Holds, hnstar]
  · obtain ⟨hslice, hd'⟩ := hstore hm.nonempty
    have hshort : name.length ≤ s.length := by
      have hlen := congrArg List.length hm.text_eq
      rw [List.length_append, List.length_cons] at hlen
      have hle : (trimSp s).length ≤ s.length :=
        (List.rdropWhile_prefix sp _).length_le.trans (length_dropWhile_le sp s)
      omega
    have hheld : ∀ D : Document, d'.text <+: D.text → D.text.length ≤ asterTextCap - 1 →
        slice.off + slice.len ≤ D.text.length ∧ D.bytes slice.toSpan = name := by
      intro D hpre hcap
      rw [hslice]
      exact held_of_room (by omega) hm.nonempty (hd' ▸ hpre) hcap
    rw [hm.countP_eq]
    by_cases hname : ∀ c ∈ name, selectorMark c = false
    · -- one mark
      rw [countP_mark_zero hname]
      exact iff_of_true (hm.means hheld hname st) (by decide)
    · -- the name as far as the next mark
      have hsplit := List.takeWhile_append_dropWhile (p := (!selectorMark ·)) (l := name)
      have hfirst : ∀ c ∈ name.takeWhile (!selectorMark ·), selectorMark c = false := fun c hc => by
        simpa using List.mem_takeWhile_imp hc
      have hstop := List.head?_dropWhile_not (!selectorMark ·) name
      have hd'cap : d'.text.length ≤ asterTextCap - 1 := by
        rw [hd', show (storeSlice d name).2.text = _ from store_text d name]
        exact length_poolAfter_le (by omega) name
      cases hrest : name.dropWhile (!selectorMark ·) with
      | nil =>
        rw [hrest, List.append_nil] at hsplit
        rw [hsplit] at hfirst
        exact absurd hfirst hname
      | cons c rest =>
        rw [hrest] at hsplit hstop
        have hc : selectorMark c = true := by simpa using hstop
        refine iff_of_false (hm.not_means hheld hsplit hfirst hc hd'cap st) ?_
        rw [← hsplit, List.countP_append, List.countP_cons_of_pos hc]
        omega

theorem selector_means_iff_tagCls : MeansParts (selector (asterDocumentInit .zero) (ascii "p.note")).2
      ⟨some .p, .tagCls, ⟨⟨0, 4⟩, ascii "note"⟩, ⟨0, 0, false, 0⟩⟩ (trimSp (ascii "p.note")) ↔
    (trimSp (ascii "p.note")).countP selectorMark ≤ 1 :=
  @selector_means_iff (asterDocumentInit .zero) _ (ascii "p.note") _ _ _ ⟨0, 0, false, 0⟩ rfl (by decide)

/-- A page with a rule for elements of two classes, and such an element. -/
def compoundPage : List UInt8 := ascii "<style>.a.b\x7bcolor:#111111\x7d</style><p class=\"a b\">x"

/-- The rule of the page. -/
def compoundRule : CssRule := ⟨none, .cls, ⟨⟨0, 3⟩, ascii "a.b"⟩, styletext (ascii "color:#111111")⟩

/-- The element has both classes and is not matched. -/
theorem selector_misses_compound : ¬ ∀ (d d' : Document) (s : List UInt8) (tag : Option Tag)
    (kind : SelectorKind) (slice : Slice) (st : Style), selector d s = (some (tag, kind, slice), d') →
      d.text.length + s.length ≤ asterTextCap - 1 → MeansParts d' ⟨tag, kind, slice, st⟩ (trimSp s) := by
  intro hall
  have hmeans := hall (asterDocumentInit .zero) _ (ascii ".a.b") none .cls ⟨⟨0, 3⟩, ascii "a.b"⟩
    compoundRule.style rfl (by decide)
  have hnode : ((asterParseHtml .zero compoundPage).2.nodes[2]?).map
      (fun n => (n.id.toSpan, n.cls.toSpan, matchesRule (asterParseHtml .zero compoundPage).2 compoundRule n)) =
        some (⟨0, 0⟩, ⟨3, 3⟩, false) := by
    decide +kernel
  obtain ⟨n, -, hn⟩ := Option.map_eq_some_iff.mp hnode
  obtain ⟨hid, hn⟩ := Prod.mk.inj hn
  obtain ⟨hcls, hno⟩ := Prod.mk.inj hn
  have hiff := hmeans (asterParseHtml .zero compoundPage).2 n (by decide +kernel) (by decide +kernel)
    (by rw [hid]; decide +kernel) (by rw [hcls]; decide +kernel)
  rw [hcls, show (asterParseHtml .zero compoundPage).2.bytes ⟨3, 3⟩ = ascii "a b" by decide +kernel,
    show simpleParts (trimSp (ascii ".a.b")) = [.cls (ascii "a"), .cls (ascii "b")] by decide] at hiff
  have hyes : matchesRule (asterParseHtml .zero compoundPage).2 compoundRule n = true := by
    refine hiff.mpr fun part hpart => ?_
    rcases List.mem_pair.mp hpart with rfl | rfl
    · show ascii "a" ∈ words sp (ascii "a b")
      decide
    · show ascii "b" ∈ words sp (ascii "a b")
      decide
  rw [hno] at hyes
  cases hyes

end Orion.Aster
