import Orion.Aster.Contents
import Orion.Aster.Descent

/-!
# The coordinates of a layout

The orders of a page have bounded edges and widths (`Order.Ok`), so that all coordinates of its items but
`y` fit into 16 bits (`drawn_ok`), and the walk never goes up, so that the items follow each other downwards
(`drawn_precedes`).  The paint list is what the walk computes if the page is not too long and goes on for long
enough behind its large words (`Roomy`).
-/

namespace Orion.Aster

open Orion.Lib

/-! ## The orders of a page -/

/-- What the orders of a page are limited to. -/
def Order.Ok (width : ℤ) : Order → Prop
  | .fresh left => 0 ≤ left
  | .down k => 0 < k
  | .indent k x => 0 < k ∧ 0 ≤ x
  | .within left => 0 ≤ left
  | .line left k => 0 ≤ left ∧ 0 < k
  | .word _ look box text => (0 ≤ box.1 ∧ box.1 ≤ 1344) ∧ (0 < box.2 ∧ box.2 ≤ max width 120) ∧
    (0 < text.len ∧ text.len ≤ 768) ∧ look.flags &&& asterPaintImage = 0
  | .image _ left w h _ _ _ => (0 ≤ left ∧ left ≤ 1344) ∧ (0 < w ∧ w ≤ max width 120) ∧ (0 < h ∧ h ≤ 360)

/-- The orders of a layout come from the nodes. -/
theorem mem_script {d : Document} (h : Tree d.nodes) {width : ℤ} {o : Order} : ∀ {fuel n : ℕ},
    o ∈ script d fuel n (boxOf d width n) → ∃ m q, d.nodes[m]? = some q ∧
      (o ∈ before d m q (boxOf d width m) ∨ o ∈ after q (boxOf d width m)) := by
  intro fuel
  induction fuel with
  | zero => exact fun ho => absurd ho List.not_mem_nil
  | succ fuel ih =>
    intro n ho
    rw [script] at ho
    cases hq : d.nodes[n]? with
    | none =>
      rw [hq] at ho
      exact absurd ho List.not_mem_nil
    | some q =>
      simp only [hq] at ho
      split at ho
      · exact absurd ho List.not_mem_nil
      · rcases List.mem_append.mp ho with ho | ho
        · rcases List.mem_append.mp ho with ho | ho
          · exact ⟨n, q, hq, .inl ho⟩
          · obtain ⟨c, hc, ho⟩ := List.mem_flatMap.mp ho
            rw [children_eq h (List.getElem?_eq_some_iff.mp hq).1] at hc
            rw [← boxOf_child h width hq hc] at ho
            exact ih ho
        · exact ⟨n, q, hq, .inr ho⟩

theorem decode_length_le {cap : ℕ} (hcap : cap ≠ 0) (s : List UInt8) : (decode cap s).length ≤ cap := by
  have h := decode_stops hcap s
  unfold Stops at h
  split at h
  · exact h.le
  · rw [h]
    exact (List.length_take_le _ _).trans (Nat.sub_le _ _)

theorem newElement_type (d : Document) (p : ℕ) (t : Tag) (a : List UInt8) :
    (newElement d p t a).type = .element :=
  congrArg Node.type (attrs_new d p t none none a)

/-- A text node has 768 characters at most. -/
theorem asterParseHtml_text_len {d₀ : Document} {h : List UInt8} {n : ℕ} {q : Node}
    (hq : (asterParseHtml d₀ h).2.nodes[n]? = some q) (htext : q.type = .text) : q.text.len ≤ 768 := by
  cases n with
  | zero =>
    have hroot := asterParseHtml_root d₀ h
    rw [hq] at hroot
    have htype : q.type = .root := congrArg Node.type (Option.some.inj hroot)
    rw [htext] at htype
    cases htype
  | succ i =>
    obtain ⟨t, -, d, p, ht⟩ := asterParseHtml_node hq
    have helement : ∀ {t a}, some (newElement d p t a) = some q.unlinked → q.text.len ≤ 768 := by
      intro t a ht
      have htype : q.type = .element := by
        rw [← newElement_type d p t a, Option.some.inj ht]
        rfl
      rw [htext] at htype
      cases htype
    cases t with
    | text raw =>
      rw [tokenNode] at ht
      split at ht
      · cases ht
      · have hlen : q.text.len = u16 (decode 768 raw).length :=
          congrArg (fun n : Node => n.text.len) (Option.some.inj ht).symm
        rw [hlen]
        exact (Nat.mod_le _ _).trans (decode_length_le (by decide) raw)
    | skip => cases ht
    | close t => cases ht
    | element t a self => exact helement ht
    | style a sheet => exact helement ht
    | script a => exact helement ht

theorem wordOrders_ok {d : Document} {n : ℕ} {box : ℤ × ℤ} {off : ℕ} {s : List UInt8} {width : ℤ}
    (hs : s.length ≤ 768) (hleft : 0 ≤ box.1 ∧ box.1 ≤ 1344) (hwidth : 0 < box.2 ∧ box.2 ≤ max width 120) :
    ∀ o ∈ wordOrders n (textLook d n) box off s, o.Ok width := by
  intro o ho
  obtain ⟨w, hw, rfl⟩ := List.mem_map.mp ho
  have hlen := wordSpans_len hw
  exact ⟨hleft, hwidth, ⟨hlen.1, hlen.2.trans hs⟩, textLook_flags d n⟩

section

variable {d : Document} {width : ℤ} {n : ℕ} {q : Node}

theorem imageOrder_ok {box : ℤ × ℤ} (hleft : 0 ≤ box.1 ∧ box.1 ≤ 1344)
    (hwidth : 0 < box.2 ∧ box.2 ≤ max width 120) : (imageOrder d n q box).Ok width := by
  refine ⟨hleft, ?_, ?_⟩
  · split
    · split <;> omega
    · split <;> split <;> omega
  · split
    · split <;> omega
    · decide

theorem before_ok (htext : q.type = .text → q.text.len ≤ 768) {box : ℤ × ℤ}
    (hleft : 0 ≤ box.1 ∧ box.1 ≤ 1344) (hwidth : 0 < box.2 ∧ box.2 ≤ max width 120) :
    ∀ o ∈ before d n q box, o.Ok width := by
  intro o ho
  simp only [before, List.mem_append, List.mem_ite_nil_right, List.mem_singleton] at ho
  rcases ho with ((((⟨-, rfl⟩ | ⟨-, rfl⟩) | ⟨htype, ho⟩) | ⟨-, rfl⟩) | ⟨-, rfl⟩) | ⟨-, rfl⟩
  · exact hleft.1
  · have hin : 0 ≤ (innerBox q.tag box.1 box.2).1 := by
      cases q.tag <;> simp only [innerBox] <;> omega
    split
    · exact ⟨by decide, hin⟩
    · exact (by decide : (0 : ℤ) < 8)
  · rcases List.mem_cons.mp ho with rfl | ho
    · exact hleft.1
    · exact wordOrders_ok (by rw [length_bytes]; exact htext htype) hleft hwidth o ho
  · exact ⟨hleft.1, by decide⟩
  · exact ⟨hleft.1, by decide⟩
  · exact imageOrder_ok hleft hwidth

theorem after_ok {box : ℤ × ℤ} (hleft : 0 ≤ box.1) : ∀ o ∈ after q box, o.Ok width := by
  intro o ho
  rw [after, List.mem_ite_nil_right, List.mem_singleton] at ho
  obtain ⟨-, rfl⟩ := ho
  refine ⟨hleft, ?_⟩
  split
  · decide
  · split
    · decide
    · split <;> decide

end

theorem layoutScript_ok (d₀ : Document) (h : List UInt8) (width : ℤ) :
    ∀ o ∈ layoutScript (asterParseHtml d₀ h).2 width, o.Ok width := by
  intro o ho
  have htree := asterParseHtml_tree d₀ h
  have hdeep := asterParseHtml_deep d₀ h
  have hlen : ∀ (n : ℕ) (q : Node), (asterParseHtml d₀ h).2.nodes[n]? = some q → q.type = .text →
      q.text.len ≤ 768 := fun _ _ => asterParseHtml_text_len
  generalize (asterParseHtml d₀ h).2 = d at *
  rw [layoutScript, ← boxOf_root htree] at ho
  obtain ⟨m, q, hq, ho⟩ := mem_script htree ho
  obtain ⟨hleft, hleft', hwidth⟩ := boxOf_range d width m
  have hdeepm := hdeep m
  have hedge : 0 ≤ (boxOf d width m).1 ∧ (boxOf d width m).1 ≤ 1344 := ⟨hleft, by omega⟩
  rcases ho with ho | ho
  · exact before_ok (hlen m q hq) hedge hwidth o ho
  · exact after_ok hleft o ho

/-! ## Forwards -/

/-- In the order of reading: on a lower line, or not to the left on the same line. -/
def Pen.Before (p p' : Pen) : Prop := p.y < p'.y ∨ p.y = p'.y ∧ p.x ≤ p'.x

theorem Pen.Before.trans {a b c : Pen} (hab : a.Before b) (hbc : b.Before c) : a.Before c := by
  unfold Pen.Before at *
  omega

theorem Pen.before_refl (p : Pen) : p.Before p := .inr ⟨rfl, le_rfl⟩

theorem lh_range (s : ℕ) : 24 ≤ lh s ∧ lh s ≤ 52 := by
  rw [lh]
  split <;> decide

theorem wrap_before (look : TextLook) (box : ℤ × ℤ) (ww : ℤ) (p : Pen) : p.Before (p.wrap look box ww) := by
  have hpos := lh_range look.scale
  rw [Pen.wrap]
  split
  · exact .inl (by show p.y < p.y + lh look.scale; omega)
  · exact p.before_refl

/-- **The walk goes forwards.** -/
theorem step_before {width : ℤ} {o : Order} (hok : o.Ok width) (p : Pen) : p.Before (o.step p) := by
  cases o with
  | fresh left =>
    show p.Before (if p.x ≠ left then ⟨left, p.y + 24⟩ else p)
    split
    · exact .inl (by show p.y < p.y + 24; omega)
    · exact p.before_refl
  | down k =>
    have hk : 0 < k := hok
    exact .inl (by show p.y < p.y + k; omega)
  | indent k x =>
    obtain ⟨hk, -⟩ := hok
    exact .inl (by show p.y < p.y + k; omega)
  | «within» left =>
    show p.Before (if p.x < left then ⟨left, p.y⟩ else p)
    split
    · next hx => exact .inr ⟨rfl, hx.le⟩
    · exact p.before_refl
  | line left k =>
    obtain ⟨-, hk⟩ := hok
    exact .inl (by show p.y < p.y + k; omega)
  | word n look box text =>
    refine (wrap_before look box (wordWidth look text) p).trans (.inr ⟨rfl, ?_⟩)
    have hw := wordWidth_nonneg look text
    have hc := cw_pos look.scale
    show _ ≤ (p.wrap look box (wordWidth look text)).x + wordWidth look text + cw look.scale
    omega
  | image n left w h text l src =>
    obtain ⟨-, -, hh, -⟩ := hok
    exact .inl (by show p.y < p.y + (h + 12); omega)

theorem wrap_nonneg {look : TextLook} {box : ℤ × ℤ} {ww : ℤ} {p : Pen} (hbox : 0 ≤ box.1) (hx : 0 ≤ p.x) :
    0 ≤ (p.wrap look box ww).x := by
  rw [Pen.wrap]
  split
  · exact hbox
  · exact hx

/-- The walk stays right of the edge of the page. -/
theorem step_nonneg {width : ℤ} {o : Order} (hok : o.Ok width) {p : Pen} (hx : 0 ≤ p.x) :
    0 ≤ (o.step p).x := by
  cases o with
  | fresh left =>
    show 0 ≤ (if p.x ≠ left then Pen.mk left (p.y + 24) else p).x
    split
    · exact hok
    · exact hx
  | down k => exact hx
  | indent k x => exact hok.2
  | «within» left =>
    show 0 ≤ (if p.x < left then Pen.mk left p.y else p).x
    split
    · exact hok
    · exact hx
  | line left k => exact hok.1
  | word n look box text =>
    have hwrap : 0 ≤ (p.wrap look box (wordWidth look text)).x := wrap_nonneg hok.1.1 hx
    have hw := wordWidth_nonneg look text
    have hc := cw_pos look.scale
    show 0 ≤ (p.wrap look box (wordWidth look text)).x + wordWidth look text + cw look.scale
    omega
  | image n left w h text l src => exact hok.1.1

/-! ## The items -/

/-- Words are the items that are no images. -/
def PaintItem.isWord (i : PaintItem) : Bool := i.flags &&& asterPaintImage = 0

theorem wordItem_isWord {look : TextLook} (h : look.flags &&& asterPaintImage = 0) (text : Span) (p : Pen) :
    (wordItem look text p).isWord = true :=
  decide_eq_true h

theorem imageItem_isWord (left w h : ℤ) (text : Span) (l : Option Node) (src : Span) (p : Pen) :
    (imageItem left w h text l src p).isWord = false := by
  show decide (asterPaintImage &&& asterPaintImage = 0) = false
  decide

/-- What the items of a page are limited to. -/
structure PaintItem.Ok (width : ℤ) (i : PaintItem) : Prop where
  x : 0 ≤ i.x ∧ i.x ≤ 1344 + max width 120
  y : 0 ≤ i.y
  w : 0 < i.w ∧ i.w ≤ max 18432 (max width 120)
  h : 0 < i.h ∧ i.h ≤ 360
  word : i.isWord = true → i.h = lh i.scale
  image : i.isWord = false → i.scale = 1

theorem wordWidth_range {look : TextLook} {text : Span} (hpos : 0 < text.len) (hlen : text.len ≤ 768) :
    0 < wordWidth look text ∧ wordWidth look text ≤ 18432 := by
  rw [wordWidth, cw]
  split <;> omega

/-- **The items of a page.** -/
theorem out_ok {width : ℤ} {o : Order} (hok : o.Ok width) {p : Pen} (hx : 0 ≤ p.x) (hy : 0 ≤ p.y) :
    ∀ i ∈ o.out p, i.Ok width := by
  intro i hi
  cases o with
  | word n look box text =>
    obtain ⟨⟨hleft, hleft'⟩, ⟨hwidth, hwidth'⟩, ⟨hpos, hlen⟩, hflags⟩ := hok
    obtain rfl := List.mem_singleton.mp hi
    have hww : 0 < wordWidth look text ∧ wordWidth look text ≤ 18432 := wordWidth_range hpos hlen
    have hlh := lh_range look.scale
    have hword := wordItem_isWord hflags text (p.wrap look box (wordWidth look text))
    refine ⟨⟨wrap_nonneg hleft hx, ?_⟩, ?_, ⟨hww.1, ?_⟩, ⟨?_, ?_⟩, fun _ => rfl, fun h => ?_⟩
    · show (p.wrap look box (wordWidth look text)).x ≤ _
      rw [Pen.wrap]
      split
      · show box.1 ≤ _
        omega
      · next hfits => omega
    · have hdown := wrap_before look box (wordWidth look text) p
      show 0 ≤ (p.wrap look box (wordWidth look text)).y
      unfold Pen.Before at hdown
      omega
    · show wordWidth look text ≤ _
      omega
    · show 0 < lh look.scale
      omega
    · show lh look.scale ≤ 360
      omega
    · rw [hword] at h
      cases h
  | image n left w h text l src =>
    obtain ⟨⟨hleft, hleft'⟩, ⟨hw, hw'⟩, hh⟩ := hok
    obtain rfl := List.mem_singleton.mp hi
    refine ⟨⟨hleft, ?_⟩, hy, ⟨hw, ?_⟩, hh, fun h => ?_, fun _ => rfl⟩
    · show left ≤ _
      omega
    · show w ≤ _
      omega
    · rw [imageItem_isWord] at h
      cases h
  | _ => cases hi

/-- How far below the top of an item the walk is behind it, at least. -/
def PaintItem.reach (i : PaintItem) : ℤ := if i.isWord then 0 else i.h + 12

/-- The walk is behind an item: below its reach, and to its right if it is on its line. -/
def PaintItem.Behind (i : PaintItem) (p : Pen) : Prop :=
  i.y + i.reach ≤ p.y ∧ (i.y = p.y → i.x + i.w ≤ p.x)

theorem PaintItem.Behind.before {i : PaintItem} {p p' : Pen} (h : i.Behind p) (hp : p.Before p') :
    0 ≤ i.reach → i.Behind p' := by
  intro hreach
  unfold PaintItem.Behind Pen.Before at *
  omega

/-- An item and a later one: the later one is below the reach of the first, and a word on the line of the
first is to its right. -/
def PaintItem.Precedes (i j : PaintItem) : Prop :=
  i.y + i.reach ≤ j.y ∧ (j.isWord = true → i.y = j.y → i.x + i.w ≤ j.x)

theorem behind_out {width : ℤ} {o : Order} (hok : o.Ok width) (p : Pen) :
    ∀ i ∈ o.out p, i.Behind (o.step p) := by
  intro i hi
  cases o with
  | word n look box text =>
    obtain rfl := List.mem_singleton.mp hi
    have hword := wordItem_isWord hok.2.2.2 text (p.wrap look box (wordWidth look text))
    have hc := cw_pos look.scale
    rw [PaintItem.Behind, PaintItem.reach, if_pos hword]
    refine ⟨?_, fun _ => ?_⟩
    · show (p.wrap look box (wordWidth look text)).y + 0 ≤ (p.wrap look box (wordWidth look text)).y
      omega
    · show (p.wrap look box (wordWidth look text)).x + wordWidth look text ≤
        (p.wrap look box (wordWidth look text)).x + wordWidth look text + cw look.scale
      omega
  | image n left w h text l src =>
    obtain ⟨-, -, hh, -⟩ := hok
    obtain rfl := List.mem_singleton.mp hi
    refine ⟨?_, fun hy => ?_⟩
    · rw [PaintItem.reach, imageItem_isWord]
      exact le_rfl
    · have hsame : p.y = p.y + (h + 12) := hy
      omega
  | _ => cases hi

theorem precedes_out {width : ℤ} {o : Order} (hok : o.Ok width) {p : Pen} {i : PaintItem}
    (hi : i.Behind p) (hreach : 0 ≤ i.reach) : ∀ j ∈ o.out p, i.Precedes j := by
  intro j hj
  cases o with
  | word n look box text =>
    obtain rfl := List.mem_singleton.mp hj
    have hbehind := hi.before (wrap_before look box (wordWidth look text) p) hreach
    exact ⟨hbehind.1, fun _ => hbehind.2⟩
  | image n left w h text l src =>
    obtain rfl := List.mem_singleton.mp hj
    refine ⟨hi.1, fun h => ?_⟩
    rw [imageItem_isWord] at h
    cases h
  | _ => cases hj

/-- A position in the page. -/
def Pen.Inside (p : Pen) : Prop := 0 ≤ p.x ∧ 0 ≤ p.y

theorem step_inside {width : ℤ} {o : Order} (hok : o.Ok width) {p : Pen} (hp : p.Inside) :
    (o.step p).Inside := by
  refine ⟨step_nonneg hok hp.1, ?_⟩
  have hdown := step_before hok p
  have hy := hp.2
  unfold Pen.Before at hdown
  omega

theorem reach_nonneg {width : ℤ} {i : PaintItem} (hi : i.Ok width) : 0 ≤ i.reach := by
  have hh := hi.h.1
  rw [PaintItem.reach]
  split <;> omega

section

variable (d₀ : Document) (h : List UInt8) (width : ℤ)

theorem drawn_ok : ∀ i ∈ drawn (asterParseHtml d₀ h).2 width, i.Ok width := by
  have hok := layoutScript_ok d₀ h width
  exact (Mealy.run_inv (M := plotter) (I := Pen.Inside) (P := PaintItem.Ok width)
    (fun o ho p hp => ⟨step_inside (hok o ho) hp, out_ok (hok o ho) hp.1 hp.2⟩) ⟨le_rfl, le_rfl⟩).2

/-- **The items follow each other forwards**, and the walk ends behind all of them. -/
theorem drawn_precedes : (drawn (asterParseHtml d₀ h).2 width).Pairwise PaintItem.Precedes ∧
    ∀ i ∈ drawn (asterParseHtml d₀ h).2 width, i.Behind (layoutEnd (asterParseHtml d₀ h).2 width) := by
  have hok := layoutScript_ok d₀ h width
  generalize (asterParseHtml d₀ h).2 = d at hok ⊢
  have hrun : (drawn d width).Pairwise PaintItem.Precedes ∧
      (∀ i ∈ drawn d width, i.Behind (layoutEnd d width) ∧ 0 ≤ i.reach) ∧ _ := Mealy.outputs_pairwise
    (M := plotter) (I := Pen.Inside) (A := fun i p => i.Behind p ∧ 0 ≤ i.reach)
    (fun o ho p hp => ⟨step_inside (hok o ho) hp, ?_, fun i hi => ⟨behind_out (hok o ho) p i hi,
      reach_nonneg (out_ok (hok o ho) hp.1 hp.2 i hi)⟩⟩)
    (fun o ho p hp i hi => ⟨⟨hi.1.before (step_before (hok o ho) p) hi.2, hi.2⟩,
      precedes_out (hok o ho) hi.1 hi.2⟩) ⟨le_rfl, le_rfl⟩
  · exact ⟨hrun.1, fun i hi => (hrun.2.1 i hi).1⟩
  · cases o <;> first | exact List.Pairwise.nil | exact List.pairwise_singleton _ _

end

/-! ## The stored coordinates -/

/-- The paint list is what the walk computed; no item is above the page, none is above an earlier one, and
none ends below the page. -/
def CoordinatesKept (d : Document) (width : ℤ) : Prop :=
  (asterLayout d width).paint = (drawn d width).take asterMaxPaint ∧
  (∀ i ∈ (asterLayout d width).paint, 0 ≤ i.y) ∧
  (asterLayout d width).paint.Pairwise (fun i j => i.y ≤ j.y) ∧
  ∀ i ∈ (asterLayout d width).paint, i.y + i.h ≤ asterDocumentHeight (asterLayout d width)

/-- All coordinates but `y` fit into 16 bits. -/
theorem stored_eq_iff {width : ℤ} (hwidth : width ≤ 4096) {i : PaintItem} (hi : i.Ok width) :
    i.stored = i ↔ i.y < 2 ^ 15 := by
  have hx : int16 i.x = i.x := int16_of_range (by have := hi.x; omega) (by have := hi.x; omega)
  have hw : int16 i.w = i.w := int16_of_range (by have := hi.w; omega) (by have := hi.w; omega)
  have hh : int16 i.h = i.h := int16_of_range (by have := hi.h; omega) (by have := hi.h; omega)
  constructor
  · intro hsame
    have hy : int16 i.y = i.y := congrArg PaintItem.y hsame
    rw [← hy]
    exact int16_lt i.y
  · intro hlt
    have hy : int16 i.y = i.y := int16_of_range (by have := hi.y; omega) hlt
    rw [PaintItem.stored, hx, hy, hw, hh]

/-- Behind the last item the walk is at least that far down, that all items but large words end in the
page. -/
theorem height_le_iff {width : ℤ} {i : PaintItem} (hi : i.Ok width) {p : Pen} (hbehind : i.Behind p) :
    i.y + i.h ≤ p.y + 32 ↔ (i.scale = 2 → i.y + 20 ≤ p.y) := by
  obtain ⟨hdown, -⟩ := hbehind
  rw [PaintItem.reach] at hdown
  cases hword : i.isWord with
  | true =>
    rw [hword, if_pos rfl] at hdown
    rw [hi.word hword, lh]
    by_cases hscale : i.scale = 2
    · rw [if_pos hscale]
      simp only [hscale, true_imp_iff]
      omega
    · rw [if_neg hscale]
      simp only [hscale, false_imp_iff, iff_true]
      omega
  | false =>
    rw [hword, if_neg Bool.false_ne_true] at hdown
    simp only [hi.image hword, OfNat.one_ne_ofNat, false_imp_iff, iff_true]
    omega

theorem Precedes.le {width : ℤ} {i j : PaintItem} (hi : i.Ok width) (h : i.Precedes j) : i.y ≤ j.y := by
  have hreach := reach_nonneg hi
  have hdown := h.1
  omega

/-- The orders in front of an item that is shown go down 32767 at most, and those behind a word of large scale
go down at least 20, as the end of a first heading does. -/
structure Roomy (d : Document) (width : ℤ) : Prop where
  short : ∀ os₁ o os₂, ShownAt d width os₁ o os₂ → drops os₁ 0 + o.lead (columns os₁ 0) ≤ 32767
  below : ∀ os₁ n look box text os₂, ShownAt d width os₁ (.word n look box text) os₂ → look.scale = 2 →
    20 ≤ drops os₂ ((Order.word n look box text).column (columns os₁ 0))

section

variable {d : Document} {width : ℤ}

/-- What the orders in front of an item go down is its `y`. -/
theorem short_iff : (∀ os₁ o os₂, ShownAt d width os₁ o os₂ → drops os₁ 0 + o.lead (columns os₁ 0) ≤ 32767) ↔
    ∀ i ∈ (drawn d width).take asterMaxPaint, i.y ≤ 32767 := by
  rw [forall_shown_iff]
  refine forall₄_congr fun os₁ o os₂ hshown => ?_
  constructor
  · intro hshort i hi
    rw [(out_places hi).y]
    exact hshort
  · intro hall
    obtain ⟨i, hi⟩ := exists_out hshown.places ⟨columns os₁ 0, drops os₁ 0⟩
    have hy := hall i hi
    rwa [(out_places hi).y] at hy

/-- What the orders behind a word go down is left of the page. -/
theorem below_iff : (∀ os₁ n look box text os₂, ShownAt d width os₁ (.word n look box text) os₂ →
      look.scale = 2 → 20 ≤ drops os₂ ((Order.word n look box text).column (columns os₁ 0))) ↔
    ∀ i ∈ (drawn d width).take asterMaxPaint, i.scale = 2 → i.y + 20 ≤ (layoutEnd d width).y := by
  have hrest : ∀ os₁ n look box text os₂, ShownAt d width os₁ (.word n look box text) os₂ →
      ∀ i ∈ (Order.word n look box text).out ⟨columns os₁ 0, drops os₁ 0⟩, (layoutEnd d width).y =
        i.y + drops os₂ ((Order.word n look box text).column (columns os₁ 0)) := by
    intro os₁ n look box text os₂ hshown i hi
    rw [layoutEnd, run_page, hshown.script, (out_places hi).y]
    show drops (os₁ ++ Order.word n look box text :: os₂) 0 = drops os₁ 0 +
      (Order.word n look box text).lead (columns os₁ 0) + _
    have htrail : (Order.word n look box text).trail = 0 := rfl
    rw [drops_append, drops, htrail, add_zero, add_assoc]
  rw [forall_shown_iff]
  constructor
  · intro hbelow os₁ o os₂ hshown i hi hscale
    cases o with
    | word n look box text =>
      rw [hrest os₁ n look box text os₂ hshown i hi]
      have hlook : look.scale = 2 := by
        obtain rfl := List.mem_singleton.mp hi
        exact hscale
      have hdown := hbelow os₁ n look box text os₂ hshown hlook
      omega
    | image n left w h text l src =>
      obtain rfl := List.mem_singleton.mp hi
      cases hscale
    | _ => cases hi
  · intro hall os₁ n look box text os₂ hshown hscale
    obtain ⟨i, hi⟩ := exists_out hshown.places ⟨columns os₁ 0, drops os₁ 0⟩
    have hlook : i.scale = 2 := by
      obtain rfl := List.mem_singleton.mp hi
      exact hscale
    have hdown := hall os₁ _ os₂ hshown i hi hlook
    rw [hrest os₁ n look box text os₂ hshown i hi] at hdown
    omega

end

/-- **When a layout keeps the coordinates.** -/
theorem aster_layout_coordinates_iff (d₀ : Document) (h : List UInt8) (width : ℤ) (hwidth : width ≤ 4096) :
    CoordinatesKept (asterParseHtml d₀ h).2 width ↔ Roomy (asterParseHtml d₀ h).2 width := by
  have hok := drawn_ok d₀ h width
  obtain ⟨hpairs, hend⟩ := drawn_precedes d₀ h width
  generalize (asterParseHtml d₀ h).2 = d at *
  obtain ⟨hpaint, hheight⟩ := layout_paint d width
  have hsub := List.take_sublist asterMaxPaint (drawn d width)
  have hroomy : Roomy d width ↔ (∀ i ∈ (drawn d width).take asterMaxPaint, i.y ≤ 32767) ∧
      ∀ i ∈ (drawn d width).take asterMaxPaint, i.scale = 2 → i.y + 20 ≤ (layoutEnd d width).y :=
    ⟨fun hr => ⟨short_iff.mp hr.short, below_iff.mp hr.below⟩,
      fun hr => ⟨short_iff.mpr hr.1, below_iff.mpr hr.2⟩⟩
  rw [hroomy, CoordinatesKept, hpaint, hheight]
  replace hok := fun i hi => hok i (hsub.subset hi)
  replace hend := fun i hi => hend i (hsub.subset hi)
  replace hpairs := hpairs.sublist hsub
  generalize (drawn d width).take asterMaxPaint = items at *
  constructor
  · rintro ⟨hsame, -, -, hheights⟩
    rw [hsame] at hheights
    refine ⟨fun i hi => ?_, fun i hi => (height_le_iff (hok i hi) (hend i hi)).mp (hheights i hi)⟩
    have hstored : i.stored = i :=
      List.map_inj_left.mp (hsame.trans (List.map_id items).symm) i hi
    have hlt := (stored_eq_iff hwidth (hok i hi)).mp hstored
    omega
  · rintro ⟨hshort, hlarge⟩
    have hstored : ∀ i ∈ items, i.stored = i := by
      intro i hi
      have hlow := hshort i hi
      exact (stored_eq_iff hwidth (hok i hi)).mpr (by omega)
    have hsame : items.map PaintItem.stored = items := by
      rw [List.map_congr_left hstored]
      exact List.map_id items
    rw [hsame]
    refine ⟨rfl, fun i hi => (hok i hi).y, ?_, fun i hi => ?_⟩
    · exact hpairs.imp_of_mem fun hi _ h => Precedes.le (hok _ hi) h
    · exact (height_le_iff (hok i hi) (hend i hi)).mpr (hlarge i hi)

/-- A large word, and nothing below it. -/
def largePage : List UInt8 := ascii "<b style=font-size:30px>x"

theorem aster_layout_coordinates_iff_largePage :
    CoordinatesKept (asterParseHtml .zero largePage).2 320 ↔ Roomy (asterParseHtml .zero largePage).2 320 :=
  aster_layout_coordinates_iff .zero largePage 320 (by decide)

/-- The word ends 20 pixels below the page. -/
theorem aster_layout_below : ¬ ∀ (d₀ : Document) (h : List UInt8) (width : ℤ), 120 ≤ width → width ≤ 4096 →
    CoordinatesKept (asterParseHtml d₀ h).2 width := by
  intro hall
  have hheights := (hall .zero largePage 320 (by decide) (by decide)).2.2.2
  have hfalse : ¬ ∀ i ∈ (asterLayout (asterParseHtml .zero largePage).2 320).paint,
      i.y + i.h ≤ asterDocumentHeight (asterLayout (asterParseHtml .zero largePage).2 320) := by
    decide +kernel
  exact hfalse hheights

end Orion.Aster
