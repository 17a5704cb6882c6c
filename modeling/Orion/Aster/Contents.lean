import Mathlib.Data.List.Forall2
import Orion.Aster.Decode
import Orion.Aster.Script
import Orion.Aster.Source

/-!
# What a layout shows

The contents of a page are the words of its visible text nodes and its visible images, in the order of the
tree (`contents`).  A layout shows the first 512 of them, each once, and a word that is not at the left
edge of the box of its node ends in the box (`aster_layout_contents`).
-/

namespace Orion.Aster

open Orion.Lib

/-! ## Boxes -/

/-- The box of a node: the page, made smaller by the lists and quotations around the node. -/
def boxOf (d : Document) (width : ℤ) (n : ℕ) : ℤ × ℤ :=
  (ancestors d n).tail.foldr (fun a box => innerBox (tagOf d a) box.1 box.2) (pageBox width)

section

variable {d : Document} (h : Tree d.nodes)

include h

theorem ancestors_child {n c : ℕ} (hc : c ∈ kids d.nodes n) : ancestors d c = c :: ancestors d n := by
  obtain ⟨q, hq, hparent⟩ := mem_kids.mp hc
  have hlt := (List.getElem?_eq_some_iff.mp hq).1
  have hnc := h.kid_gt hc
  obtain ⟨fuel, hfuel⟩ : ∃ k, d.nodes.length = k + 1 := ⟨d.nodes.length - 1, by omega⟩
  rw [ancestors, ancestors, hfuel, parentChain, hq]
  show c :: parentChain d.nodes fuel q.parent = _
  rw [hparent, (parentChain_spec h n (by omega) (by omega)).1,
    (parentChain_spec h n (by omega) (show n < fuel + 1 by omega)).1]

theorem ancestors_root : ancestors d 0 = [0] := by
  obtain ⟨q, hq, hnone⟩ := h.root
  rw [ancestors, (parentChain_spec h 0 h.length_pos h.length_pos).1, parentChain, hq]
  show [0] ++ parentChain d.nodes 0 q.parent = [0]
  rfl

theorem ancestors_head {n : ℕ} (hn : n < d.nodes.length) : ancestors d n = n :: (ancestors d n).tail := by
  rcases Nat.eq_zero_or_pos n with rfl | hpos
  · rw [ancestors_root h]
    rfl
  · have hq : d.nodes[n]? = some d.nodes[n] := List.getElem?_eq_getElem hn
    obtain ⟨p, hp, hparent⟩ := h.parent_lt hq hpos
    rw [ancestors_child h (mem_kids.mpr ⟨_, hq, hparent⟩)]
    rfl

theorem boxOf_root (width : ℤ) : boxOf d width 0 = pageBox width := by
  rw [boxOf, ancestors_root h]
  rfl

theorem boxOf_child (width : ℤ) {n c : ℕ} {q : Node} (hq : d.nodes[n]? = some q)
    (hc : c ∈ kids d.nodes n) :
    boxOf d width c = innerBox q.tag (boxOf d width n).1 (boxOf d width n).2 := by
  have htag : tagOf d n = q.tag := by rw [tagOf, hq]
  rw [boxOf, ancestors_child h hc, List.tail_cons, ancestors_head h (List.getElem?_eq_some_iff.mp hq).1,
    List.foldr_cons, htag]
  rfl

end

/-- Boxes lie in the page, and move to the right by at most 28 for each node around. -/
theorem boxOf_range (d : Document) (width : ℤ) (n : ℕ) :
    0 ≤ (boxOf d width n).1 ∧ (boxOf d width n).1 ≤ 28 * ((ancestors d n).tail.length : ℤ) ∧
      0 < (boxOf d width n).2 ∧ (boxOf d width n).2 ≤ max width 120 := by
  rw [boxOf]
  induction (ancestors d n).tail with
  | nil =>
    rw [List.foldr_nil, pageBox]
    refine ⟨le_rfl, by simp, ?_, ?_⟩
    · show 0 < if width < 120 then 120 else width
      split <;> omega
    · show (if width < 120 then 120 else width) ≤ max width 120
      split <;> omega
  | cons a l ih =>
    rw [List.foldr_cons, List.length_cons]
    generalize l.foldr (fun a box => innerBox (tagOf d a) box.1 box.2) (pageBox width) = box at ih
    push_cast
    cases tagOf d a <;> simp only [innerBox] <;> (try split) <;> omega

/-! ## The order of the tree -/

/-- A node and what is below it, in the order of the page. -/
def treeOrder (d : Document) : ℕ → ℕ → List ℕ
  | 0, _ => []
  | fuel + 1, n => n :: (children d n).flatMap (treeOrder d fuel)

/-- Neither the node nor anything around it is hidden. -/
def visible (d : Document) (n : ℕ) : Bool := (ancestors d n).all (!hidden d ·)

/-- What a node shows itself. -/
inductive Piece where
  | word (text : Span)
  | image (text src : Span)
  deriving Repr, DecidableEq

def nodePieces (d : Document) (q : Node) : List Piece :=
  (if q.type = .text then
    (wordSpans (· = 32) (d.bytes q.text.toSpan)).map fun w => .word ⟨q.text.off + w.1, w.2⟩ else []) ++
  (if q.tag = .img then [.image q.text.toSpan q.src.toSpan] else [])

/-- The pieces of a node, with the node. -/
def pieces (d : Document) (n : ℕ) : List (ℕ × Piece) :=
  match d.nodes[n]? with
  | none => []
  | some q => (nodePieces d q).map fun p => (n, p)

/-- The contents of a page. -/
def contents (d : Document) : List (ℕ × Piece) :=
  ((treeOrder d d.nodes.length 0).filter (visible d)).flatMap (pieces d)

section

variable {d : Document} (h : Tree d.nodes)

include h

theorem below_of_mem_treeOrder : ∀ {fuel n x : ℕ}, n < d.nodes.length → x ∈ treeOrder d fuel n →
    Below d.nodes n x ∧ x < d.nodes.length := by
  intro fuel
  induction fuel with
  | zero => exact fun _ hx => absurd hx List.not_mem_nil
  | succ fuel ih =>
    intro n x hn hx
    rw [treeOrder] at hx
    rcases List.mem_cons.mp hx with rfl | hx
    · exact ⟨.refl, hn⟩
    · rw [children_eq h hn] at hx
      obtain ⟨c, hc, hxc⟩ := List.mem_flatMap.mp hx
      obtain ⟨r, hr, hrn⟩ := mem_kids.mp hc
      obtain ⟨hb, hlt⟩ := ih (List.getElem?_eq_some_iff.mp hr).1 hxc
      exact ⟨(Below.step hr hrn .refl).trans hb, hlt⟩

theorem mem_treeOrder : ∀ {fuel n x : ℕ}, d.nodes.length ≤ fuel + n → Below d.nodes n x →
    x < d.nodes.length → x ∈ treeOrder d fuel n := by
  intro fuel
  induction fuel with
  | zero =>
    intro n x hfuel hb hx
    have hle := hb.le h
    omega
  | succ fuel ih =>
    intro n x hfuel hb hx
    have hle := hb.le h
    rw [treeOrder, List.mem_cons]
    by_cases hne : x = n
    · exact .inl hne
    · obtain ⟨c, hc, hcx⟩ := hb.child hne
      have hgt := h.kid_gt hc
      rw [children_eq h (by omega)]
      exact .inr (List.mem_flatMap.mpr ⟨c, hc, ih (by omega) hcx hx⟩)

theorem treeOrder_nodup : ∀ (fuel : ℕ) {n : ℕ}, n < d.nodes.length → (treeOrder d fuel n).Nodup := by
  intro fuel
  induction fuel with
  | zero => exact fun _ => List.nodup_nil
  | succ fuel ih =>
    intro n hn
    have hlt : ∀ c ∈ kids d.nodes n, c < d.nodes.length := fun c hc => mem_kids_lt hc
    rw [treeOrder, children_eq h hn, List.nodup_cons]
    constructor
    · intro hmem
      obtain ⟨c, hc, hnc⟩ := List.mem_flatMap.mp hmem
      have hgt := h.kid_gt hc
      have hle := (below_of_mem_treeOrder h (hlt c hc) hnc).1.le h
      omega
    · rw [List.nodup_flatMap]
      refine ⟨fun c hc => ih (hlt c hc), ?_⟩
      refine (kids_nodup d.nodes n).imp_of_mem ?_
      intro c c' hc hc' hne x hx hx'
      exact hne (Below.disjoint h hc hc' (below_of_mem_treeOrder h (hlt c hc) hx).1
        (below_of_mem_treeOrder h (hlt c' hc') hx').1)

/-- The order of the tree lists every node once. -/
theorem treeOrder_perm : (treeOrder d d.nodes.length 0).Perm (List.range d.nodes.length) := by
  rw [List.perm_ext_iff_of_nodup (treeOrder_nodup h _ h.length_pos) List.nodup_range]
  intro x
  rw [List.mem_range]
  exact ⟨fun hx => (below_of_mem_treeOrder h h.length_pos hx).2,
    fun hx => mem_treeOrder h (by omega) (h.below_root hx) hx⟩

/-- What is around a node is around everything below it. -/
theorem ancestors_subset : ∀ {fuel n x : ℕ}, n < d.nodes.length → x ∈ treeOrder d fuel n →
    ancestors d n ⊆ ancestors d x := by
  intro fuel
  induction fuel with
  | zero => exact fun _ hx => absurd hx List.not_mem_nil
  | succ fuel ih =>
    intro n x hn hx
    rw [treeOrder] at hx
    rcases List.mem_cons.mp hx with rfl | hx
    · exact List.Subset.refl _
    · rw [children_eq h hn] at hx
      obtain ⟨c, hc, hxc⟩ := List.mem_flatMap.mp hx
      have hsub := ih (mem_kids_lt hc) hxc
      rw [ancestors_child h hc] at hsub
      exact fun a ha => hsub (List.mem_cons_of_mem _ ha)

/-- Below a hidden node nothing is visible. -/
theorem visible_of_hidden {fuel n : ℕ} (hn : n < d.nodes.length) (hhidden : hidden d n = true) :
    (treeOrder d fuel n).filter (visible d) = [] := by
  rw [List.filter_eq_nil_iff]
  intro x hx hvisible
  have hmem : n ∈ ancestors d n := by
    rw [ancestors_head h hn]
    exact List.mem_cons_self
  have hnot := List.all_eq_true.mp hvisible n (ancestors_subset h hn hx hmem)
  rw [hhidden] at hnot
  cases hnot

end

/-! ## Sixteen bits -/

theorem int16_of_range {x : ℤ} (hl : -2 ^ 15 ≤ x) (hr : x < 2 ^ 15) : int16 x = x := by
  rw [int16]
  exact Int.bmod_eq_of_le (by omega) (by omega)

theorem int16_lt (x : ℤ) : int16 x < 2 ^ 15 := by
  have hlt := Int.bmod_lt (x := x) (m := 2 ^ 16) (by decide)
  rw [int16]
  omega

/-- Cutting takes a multiple of 65536 away from what is too large. -/
theorem int16_le {x : ℤ} (hl : -2 ^ 15 ≤ x) : int16 x ≤ x := by
  rw [int16, Int.bmod_def]
  norm_num
  split <;> omega

/-! ## The items of a node -/

/-- An item shows a piece; a word begins at the left edge of the box of its node, or ends in the box. -/
def Shows (d : Document) (width : ℤ) (p : ℕ × Piece) (i : PaintItem) : Prop :=
  match p.2 with
  | .word text => i.text = text ∧ i.flags &&& asterPaintImage = 0 ∧
    (i.x = (boxOf d width p.1).1 ∨ i.x + i.w ≤ (boxOf d width p.1).1 + (boxOf d width p.1).2)
  | .image text src => i.text = text ∧ i.src = src ∧ i.flags = asterPaintImage

/-- Wherever they are carried out, the orders put out items that show the pieces. -/
def Shown (d : Document) (width : ℤ) (os : List Order) (ps : List (ℕ × Piece)) : Prop :=
  ∀ p : Pen, List.Forall₂ (Shows d width) ps ((plotter.outputs os p).map PaintItem.stored)

section

variable {d : Document} {width : ℤ}

theorem Shown.append {os os' : List Order} {ps ps' : List (ℕ × Piece)} (h : Shown d width os ps)
    (h' : Shown d width os' ps') : Shown d width (os ++ os') (ps ++ ps') := by
  intro p
  rw [Mealy.outputs_append, List.map_append]
  exact List.rel_append (h p) (h' _)

theorem Shown.nil : Shown d width [] [] := fun _ => .nil

theorem Shown.quiet {o : Order} (hout : ∀ p, o.out p = []) : Shown d width [o] [] := by
  intro p
  show List.Forall₂ _ [] ((o.out p ++ []).map PaintItem.stored)
  rw [hout]
  exact .nil

theorem Shown.ite {c : Prop} [Decidable c] {os : List Order} {ps : List (ℕ × Piece)}
    (h : c → Shown d width os ps) : Shown d width (if c then os else []) (if c then ps else []) := by
  split
  · next hc => exact h hc
  · exact Shown.nil

theorem Shown.ite_quiet {c : Prop} [Decidable c] {o : Order} (hout : ∀ p, o.out p = []) :
    Shown d width (if c then [o] else []) [] := by
  split
  · exact Shown.quiet hout
  · exact Shown.nil

theorem textLook_flags (d : Document) (n : ℕ) : (textLook d n).flags &&& asterPaintImage = 0 := by
  simp only [textLook]
  split <;> split <;> split <;> rfl

theorem cw_pos (s : ℕ) : 0 < cw s := by
  rw [cw]
  split <;> decide

theorem wordWidth_nonneg (look : TextLook) (text : Span) : 0 ≤ wordWidth look text :=
  mul_nonneg (Int.natCast_nonneg _) (cw_pos _).le

/-- Behind the left edge of the box a word stays there, and it ends in the box unless it begins there. -/
theorem wrap_x {look : TextLook} {box : ℤ × ℤ} {ww : ℤ} {p : Pen} (hp : box.1 ≤ p.x) :
    box.1 ≤ (p.wrap look box ww).x ∧
      ((p.wrap look box ww).x = box.1 ∨ (p.wrap look box ww).x + ww ≤ box.1 + box.2) := by
  rw [Pen.wrap]
  split
  · exact ⟨le_rfl, .inl rfl⟩
  · next hfits => exact ⟨hp, by omega⟩

theorem word_step {n : ℕ} {look : TextLook} {box : ℤ × ℤ} {text : Span} {p : Pen} (hp : box.1 ≤ p.x) :
    box.1 ≤ (Order.step (.word n look box text) p).x := by
  have hx : box.1 ≤ (p.wrap look box (wordWidth look text)).x := (wrap_x hp).1
  have hw := wordWidth_nonneg look text
  have hc := cw_pos look.scale
  show box.1 ≤ (p.wrap look box (wordWidth look text)).x + wordWidth look text + cw look.scale
  omega

/-- A word that is placed behind the left edge of the box of its node. -/
theorem word_shows {n : ℕ} (hdeep : (ancestors d n).tail.length ≤ 48) (text : Span) {p : Pen}
    (hp : (boxOf d width n).1 ≤ p.x) :
    Shows d width (n, .word text) (wordItem (textLook d n) text
      (p.wrap (textLook d n) (boxOf d width n) (wordWidth (textLook d n) text))).stored := by
  obtain ⟨hleft, hleft', -, -⟩ := boxOf_range d width n
  have hedge : int16 (boxOf d width n).1 = (boxOf d width n).1 := int16_of_range (by omega) (by omega)
  have hw := wordWidth_nonneg (textLook d n) text
  have hwrap := @wrap_x (textLook d n) (boxOf d width n) (wordWidth (textLook d n) text) p hp
  generalize p.wrap (textLook d n) (boxOf d width n) (wordWidth (textLook d n) text) = p' at hwrap
  obtain ⟨hx, hfits⟩ := hwrap
  refine ⟨rfl, textLook_flags d n, ?_⟩
  rcases hfits with hx' | hfits
  · refine .inl ?_
    show int16 p'.x = (boxOf d width n).1
    rw [hx', hedge]
  · refine .inr ?_
    show int16 p'.x + int16 (wordWidth (textLook d n) text) ≤ (boxOf d width n).1 + (boxOf d width n).2
    have h1 := int16_le (x := p'.x) (by omega)
    have h2 := int16_le (x := wordWidth (textLook d n) text) (by omega)
    omega

theorem words_shown {n : ℕ} (hdeep : (ancestors d n).tail.length ≤ 48) {off : ℕ} (ws : List (ℕ × ℕ)) :
    ∀ {p : Pen}, (∀ w ∈ ws, off + w.1 < 2 ^ 16) → (boxOf d width n).1 ≤ p.x →
      List.Forall₂ (Shows d width) (ws.map fun w => (n, .word ⟨off + w.1, w.2⟩))
        ((plotter.outputs (ws.map fun w => .word n (textLook d n) (boxOf d width n)
          ⟨u16 (off + w.1), w.2⟩) p).map PaintItem.stored) := by
  induction ws with
  | nil => exact fun _ _ => .nil
  | cons w ws ih =>
    intro p hoff hp
    have hcut : u16 (off + w.1) = off + w.1 := Nat.mod_eq_of_lt (hoff w List.mem_cons_self)
    rw [List.map_cons, List.map_cons, Mealy.outputs_cons, List.map_append, hcut]
    exact .cons (word_shows hdeep _ hp) (ih (fun v hv => hoff v (List.mem_cons_of_mem _ hv)) (word_step (n := n) hp))

theorem textOrders_shown {n : ℕ} {q : Node} (hoff : q.text.off + q.text.len ≤ 2 ^ 16)
    (hdeep : (ancestors d n).tail.length ≤ 48) :
    Shown d width (textOrders d n q (boxOf d width n))
      ((wordSpans (· = 32) (d.bytes q.text.toSpan)).map fun w => (n, .word ⟨q.text.off + w.1, w.2⟩)) := by
  intro p
  refine words_shown hdeep _ ?_ ?_
  · intro w hw
    have hlt := wordSpans_lt hw
    rw [length_bytes] at hlt
    omega
  · show _ ≤ (if p.x < (boxOf d width n).1 then Pen.mk (boxOf d width n).1 p.y else p).x
    split
    · exact le_rfl
    · omega

theorem before_shown {n : ℕ} {q : Node} (hoff : q.text.off + q.text.len ≤ 2 ^ 16)
    (hdeep : (ancestors d n).tail.length ≤ 48) (hq : d.nodes[n]? = some q) :
    Shown d width (before d n q (boxOf d width n)) (pieces d n) := by
  have hpieces : pieces d n = [] ++ [] ++
      (if q.type = .text then (wordSpans (· = 32) (d.bytes q.text.toSpan)).map
        fun w => (n, .word ⟨q.text.off + w.1, w.2⟩) else []) ++ [] ++ [] ++
      (if q.tag = .img then [(n, .image q.text.toSpan q.src.toSpan)] else []) := by
    rw [pieces, hq]
    simp only [nodePieces, List.map_append, List.nil_append, List.append_nil, apply_ite (List.map _),
      List.map_map, List.map_nil, List.map_cons]
    rfl
  rw [hpieces]
  refine Shown.append ?_ (Shown.ite fun _ => fun p => .cons ⟨rfl, rfl, rfl⟩ .nil)
  refine Shown.append ?_ (Shown.ite_quiet fun _ => rfl)
  refine Shown.append ?_ (Shown.ite_quiet fun _ => rfl)
  refine Shown.append ?_ (Shown.ite fun _ => textOrders_shown hoff hdeep)
  refine Shown.append (Shown.ite_quiet fun _ => rfl) (Shown.ite_quiet fun p => ?_)
  split <;> rfl

/-- **The script of a node shows the visible pieces from the node on.** -/
theorem script_shown (htree : Tree d.nodes)
    (hoff : ∀ (n : ℕ) (q : Node), d.nodes[n]? = some q → q.text.off + q.text.len ≤ 2 ^ 16)
    (hdeep : ∀ n, (ancestors d n).tail.length ≤ 48) : ∀ (fuel n : ℕ), n < d.nodes.length →
      (ancestors d n).tail.all (!hidden d ·) = true →
        Shown d width (script d fuel n (boxOf d width n))
          (((treeOrder d fuel n).filter (visible d)).flatMap (pieces d)) := by
  intro fuel
  induction fuel with
  | zero => exact fun _ _ _ => Shown.nil
  | succ fuel ih =>
    intro n hn haround
    have hq : d.nodes[n]? = some d.nodes[n] := List.getElem?_eq_getElem hn
    rw [script, hq]
    by_cases hhidden : hidden d n = true
    · rw [visible_of_hidden htree hn hhidden]
      simp only [hhidden, if_true]
      exact Shown.nil
    · have hshown : hidden d n = false := by simpa using hhidden
      have hall : (ancestors d n).all (!hidden d ·) = true := by
        rw [ancestors_head htree hn, List.all_cons, hshown, haround]
        rfl
      have hkids : ∀ cs : List ℕ, (∀ c ∈ cs, c ∈ kids d.nodes n) →
          Shown d width (cs.flatMap fun c => script d fuel c (boxOf d width c))
            (((cs.flatMap (treeOrder d fuel)).filter (visible d)).flatMap (pieces d)) := by
        intro cs
        induction cs with
        | nil => exact fun _ => Shown.nil
        | cons c cs ihcs =>
          intro hcs
          have hc := hcs c List.mem_cons_self
          have hfirst := ih c (mem_kids_lt hc) (by rw [ancestors_child htree hc]; exact hall)
          rw [List.flatMap_cons, List.flatMap_cons, List.filter_append, List.flatMap_append]
          exact hfirst.append (ihcs fun x hx => hcs x (List.mem_cons_of_mem _ hx))
      have hbefore : Shown d width (before d n d.nodes[n] (boxOf d width n)) (pieces d n) :=
        before_shown (hoff n _ hq) (hdeep n) hq
      have hafter : Shown d width (after d.nodes[n] (boxOf d width n)) [] := Shown.ite_quiet fun _ => rfl
      have hwhole := (hbefore.append (hkids (kids d.nodes n) fun _ hc => hc)).append hafter
      have hboxes : (kids d.nodes n).flatMap (fun c => script d fuel c (boxOf d width c)) =
          (kids d.nodes n).flatMap fun c => script d fuel c
            (innerBox d.nodes[n].tag (boxOf d width n).1 (boxOf d width n).2) := by
        refine List.flatMap_congr fun c hc => ?_
        rw [boxOf_child htree width hq hc]
      rw [hboxes, List.append_nil] at hwhole
      have hvisible : visible d n = true := hall
      simp only [hshown, Bool.false_eq_true, if_false]
      rw [treeOrder, List.filter_cons_of_pos hvisible, List.flatMap_cons, children_eq htree hn]
      exact hwhole

end

/-! ## Pages -/

theorem asterParseHtml_deep (d₀ : Document) (h : List UInt8) (n : ℕ) :
    (ancestors (asterParseHtml d₀ h).2 n).tail.length ≤ 48 := by
  have htree := asterParseHtml_tree d₀ h
  have hdepth := fun {i p q} => asterParseHtml_depth d₀ h (i := i) (p := p) (q := q)
  generalize (asterParseHtml d₀ h).2 = d at *
  by_cases hn : n < d.nodes.length
  · have hq : d.nodes[n]? = some d.nodes[n] := List.getElem?_eq_getElem hn
    rcases Nat.eq_zero_or_pos n with rfl | hpos
    · rw [ancestors_root htree]
      exact Nat.zero_le _
    · obtain ⟨p, -, hparent⟩ := htree.parent_lt hq hpos
      obtain ⟨hchain, hlen⟩ := hdepth hq hparent
      rw [hchain]
      exact hlen
  · have hnone : ancestors d n = [] := by
      rw [ancestors]
      cases d.nodes.length with
      | zero => rfl
      | succ k => 
        rw [parentChain, List.getElem?_eq_none (not_lt.mp hn)]
    rw [hnone]
    exact Nat.zero_le _

theorem asterParseHtml_text_le (d₀ : Document) (h : List UInt8) :
    (asterParseHtml d₀ h).2.text.length ≤ asterTextCap - 1 := by
  have hinit : RulesOk (asterDocumentInit d₀) := by
    intro r hr
    cases hr
  have hpool := (parseLoop_stores (cstr h).length (cstr h) (s := ⟨asterDocumentInit d₀, [0]⟩) hinit).1.text
  have htext : (asterParseHtml d₀ h).2.text =
      (parseLoop (cstr h).length (cstr h) ⟨asterDocumentInit d₀, [0]⟩).doc.text := by
    unfold asterParseHtml
    simp only
    split <;> rfl
  rw [htext, hpool]
  exact length_poolAll_le _ (Nat.zero_le _)

/-- **What a layout shows**: the first 512 contents of the page, each once; and every word begins at the
left edge of the box of its node or ends in that box. -/
theorem aster_layout_contents (d₀ : Document) (h : List UInt8) (width : ℤ)
    (hslices : ∀ q ∈ (asterParseHtml d₀ h).2.nodes,
      q.text.off + q.text.len ≤ (asterParseHtml d₀ h).2.text.length) :
    List.Forall₂ (Shows (asterParseHtml d₀ h).2 width) ((contents (asterParseHtml d₀ h).2).take 512)
      (asterLayout (asterParseHtml d₀ h).2 width).paint := by
  have htree := asterParseHtml_tree d₀ h
  have hdeep := asterParseHtml_deep d₀ h
  have hcap := asterParseHtml_text_le d₀ h
  generalize (asterParseHtml d₀ h).2 = d at *
  have hcapv : asterTextCap - 1 = 24575 := rfl
  have hoff : ∀ (n : ℕ) (q : Node), d.nodes[n]? = some q → q.text.off + q.text.len ≤ 2 ^ 16 := by
    intro n q hq
    have hslice := hslices q (List.mem_of_getElem? hq)
    omega
  have hroot : (ancestors d 0).tail.all (!hidden d ·) = true := by
    rw [ancestors_root htree]
    rfl
  have hshown : Shown d width (script d d.nodes.length 0 (boxOf d width 0)) _ :=
    script_shown htree hoff hdeep d.nodes.length 0 htree.length_pos hroot
  rw [boxOf_root htree] at hshown
  rw [(layout_paint d width).1, List.map_take]
  exact List.forall₂_take 512 (hshown ⟨0, 0⟩)

/-- A heading and a picture, with a hidden word between them. -/
def shortPage : List UInt8 := ascii "<h1>ab c</h1><p style=display:none>x</p><img>"

theorem aster_layout_contents_shortPage :
    List.Forall₂ (Shows (asterParseHtml .zero shortPage).2 200)
      ((contents (asterParseHtml .zero shortPage).2).take 512)
      (asterLayout (asterParseHtml .zero shortPage).2 200).paint :=
  aster_layout_contents .zero shortPage 200 (by decide +kernel)

example : contents (asterParseHtml .zero shortPage).2 =
    [(2, .word ⟨0, 2⟩), (2, .word ⟨3, 1⟩), (5, .image ⟨0, 0⟩ ⟨0, 0⟩)] := by decide +kernel

end Orion.Aster
