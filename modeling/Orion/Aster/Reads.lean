import Orion.Aster.Pool

/-!
# What layout and painting read

When every slice of a document is backed by stored text, the layout, the painter and the link lookup
read stored text only: nothing changes when the rest of the array has other contents (`oldText`), and
every span of the paint list lies in a slice of one node.
-/

namespace Orion.Aster

/-! ## Other contents behind the stored text -/

/-- The document with another array behind the stored text. -/
def Document.withOld (d : Document) (g : ℕ → UInt8) : Document := { d with oldText := g }

/-- The span is empty or lies in the stored text. -/
def Stored (d : Document) (s : Span) : Prop := s.len = 0 ∨ s.off + s.len ≤ d.text.length

theorem bytes_withOld {d : Document} {s : Span} (h : Stored d s) (g : ℕ → UInt8) :
    (d.withOld g).bytes s = d.bytes s := by
  rcases h with hlen | hle
  · simp [Document.bytes, hlen]
  · rw [bytes_eq hle, bytes_eq (d := d.withOld g) hle]
    rfl

namespace TextBacked

variable {d : Document} (h : TextBacked d)

include h

theorem slice_stored {n : Node} (hn : n ∈ d.nodes) {sl : Slice} (hsl : sl ∈ n.slices) :
    Stored d sl.toSpan := by
  by_cases hlen : sl.len = 0
  · exact .inl hlen
  · exact .inr (h.1 n hn sl hsl hlen).1

theorem hasclass_withOld {n : Node} (hn : n ∈ d.nodes) {r : CssRule} (hr : r ∈ d.css)
    (g : ℕ → UInt8) : hasclass (d.withOld g) n r = hasclass d n r := by
  have hcls : Stored d n.cls.toSpan := h.slice_stored hn (by simp [Node.slices])
  unfold hasclass
  rw [bytes_withOld hcls g, bytes_withOld (.inr (h.2 r hr).1) g]

theorem matchesRule_withOld {n : Node} (hn : n ∈ d.nodes) {r : CssRule} (hr : r ∈ d.css)
    (g : ℕ → UInt8) : matchesRule (d.withOld g) r n = matchesRule d r n := by
  have hteq : teq (d.withOld g) n.id.toSpan r.selector.toSpan
      = teq d n.id.toSpan r.selector.toSpan := by
    have hid : Stored d n.id.toSpan := h.slice_stored hn (by simp [Node.slices])
    unfold teq
    rw [bytes_withOld hid g, bytes_withOld (.inr (h.2 r hr).1) g]
  unfold matchesRule
  rw [h.hasclass_withOld hn hr, hteq]

theorem rules_withOld {n : Node} (hn : n ∈ d.nodes) (st : Style) (g : ℕ → UInt8) :
    rules (d.withOld g) n st = rules d n st := by
  unfold rules
  congr 1
  apply List.foldl_ext
  intro c r hr
  have hmem : r.1 ∈ d.css := by
    have hfst := List.mem_map_of_mem (f := Prod.fst) hr
    rw [List.zipIdx_map_fst] at hfst
    exact hfst
  unfold ruleStep
  rw [h.matchesRule_withOld hn hmem]

theorem resolved_withOld (n : ℕ) (g : ℕ → UInt8) : resolved (d.withOld g) n = resolved d n := by
  have hstep : resolveStep (d.withOld g) = resolveStep d := by
    funext st i
    have hnodes : (d.withOld g).nodes = d.nodes := rfl
    unfold resolveStep
    rw [hnodes]
    cases hq : d.nodes[i]? with
    | none => rfl
    | some q => simp only [h.rules_withOld (List.mem_of_getElem? hq)]
  show ((ancestors d n).take 48).reverse.foldl (resolveStep (d.withOld g)) (baseStyle d n) = _
  rw [hstep]
  rfl

theorem hidden_withOld (n : ℕ) (g : ℕ → UInt8) : hidden (d.withOld g) n = hidden d n := by
  unfold hidden
  rw [h.resolved_withOld]
  rfl

theorem textLook_withOld (n : ℕ) (g : ℕ → UInt8) : textLook (d.withOld g) n = textLook d n := by
  unfold textLook
  rw [h.resolved_withOld]
  rfl

end TextBacked

/-- The cursor with another array behind the stored text. -/
def Cursor.withOld (cur : Cursor) (g : ℕ → UInt8) : Cursor := { cur with doc := cur.doc.withOld g }

theorem emit_withOld (d : Document) (x y w h : ℤ) (scale : ℕ) (flags : UInt8) (col : ℕ)
    (text : Span) (l : Option Node) (src : Span) (g : ℕ → UInt8) :
    emit (d.withOld g) x y w h scale flags col text l src
      = (emit d x y w h scale flags col text l src).withOld g := by
  unfold emit
  show (if d.paint.length ≥ asterMaxPaint then _ else _) = _
  split <;> rfl

theorem withOld_ite {c : Prop} [Decidable c] (a b : Cursor) (g : ℕ → UInt8) :
    (if c then a else b).withOld g = if c then a.withOld g else b.withOld g := by
  split <;> rfl

theorem wordLoop_withOld (look : TextLook) (off : ℕ) (left width : ℤ) (g : ℕ → UInt8) (fuel : ℕ) :
    ∀ (p : ℕ) (s : List UInt8) (cur : Cursor),
      wordLoop look off left width fuel p s (cur.withOld g)
        = (wordLoop look off left width fuel p s cur).withOld g := by
  induction fuel with
  | zero => exact fun _ _ _ => rfl
  | succ fuel ih =>
    intro p s cur
    rw [wordLoop, wordLoop]
    simp only
    split
    · rfl
    · have hwrap : ∀ ww, wrapLine look left width ww (cur.withOld g)
          = (wrapLine look left width ww cur).withOld g := by
        intro ww
        unfold wrapLine
        rw [withOld_ite]
        rfl
      rw [hwrap, ← ih]
      congr 1
      generalize wrapLine look left width _ cur = c
      show (⟨emit (c.doc.withOld g) _ _ _ _ _ _ _ _ _ _, _, _, _⟩ : Cursor) = _
      rw [emit_withOld]
      rfl

theorem textnode_withOld {cur : Cursor} (h : TextBacked cur.doc) {n : ℕ} {q : Node}
    (hq : q ∈ cur.doc.nodes) (left width : ℤ) (g : ℕ → UInt8) :
    textnode n q left width (cur.withOld g) = (textnode n q left width cur).withOld g := by
  unfold textnode
  simp only
  rw [← wordLoop_withOld, withOld_ite]
  show wordLoop (textLook (cur.doc.withOld g) n) _ _ _ ((cur.doc.withOld g).bytes _).length 0
    ((cur.doc.withOld g).bytes _) _ = _
  rw [h.textLook_withOld, bytes_withOld (h.slice_stored hq (by simp [Node.slices]))]
  rfl

theorem walkBefore_withOld {cur : Cursor} (h : TextBacked cur.doc) {n : ℕ} {q : Node}
    (hq : q ∈ cur.doc.nodes) (left width : ℤ) (g : ℕ → UInt8) :
    walkBefore n q left width (cur.withOld g) = (walkBefore n q left width cur).withOld g := by
  have hdoc : ∀ (c : Prop) [Decidable c] {a : Cursor} (cx cy : ℤ), a.doc = cur.doc →
      (if c then { a with cx := cx, cy := cy } else a).doc = cur.doc := by
    intro c _ a cx cy ha
    split <;> exact ha
  have hmove : ∀ (c : Prop) [Decidable c] (a : Cursor) (cx cy : ℤ),
      (if c then { a.withOld g with cx := cx, cy := cy } else a.withOld g)
        = (if c then { a with cx := cx, cy := cy } else a).withOld g := by
    intro c _ a cx cy
    rw [withOld_ite]
    rfl
  unfold walkBefore
  simp only
  -- the moves before the text
  rw [show (cur.withOld g).cx = cur.cx from rfl, show (cur.withOld g).cy = cur.cy from rfl,
    hmove (block q.tag = true ∧ cur.cx ≠ left) cur left (cur.cy + 24)]
  have d1 := hdoc (block q.tag = true ∧ cur.cx ≠ left) left (cur.cy + 24) (a := cur) rfl
  generalize (if block q.tag = true ∧ cur.cx ≠ left then _ else cur : Cursor) = c1 at d1 ⊢
  rw [show (c1.withOld g).cx = c1.cx from rfl, show (c1.withOld g).cy = c1.cy from rfl,
    hmove (spaced q.tag = true) c1 c1.cx (c1.cy + 8)]
  have d2 := hdoc (spaced q.tag = true) c1.cx (c1.cy + 8) d1
  generalize (if spaced q.tag = true then _ else c1 : Cursor) = c2 at d2 ⊢
  rw [show (c2.withOld g).cy = c2.cy from rfl,
    hmove (q.tag = .li ∨ q.tag = .blockquote) c2 (innerBox q.tag left width).1 c2.cy]
  have d3 := hdoc (q.tag = .li ∨ q.tag = .blockquote) (innerBox q.tag left width).1 c2.cy d2
  generalize (if q.tag = .li ∨ q.tag = .blockquote then _ else c2 : Cursor) = c3 at d3 ⊢
  -- the text
  have htext : (if q.type = .text then textnode n q left width (c3.withOld g) else c3.withOld g)
      = (if q.type = .text then textnode n q left width c3 else c3).withOld g := by
    rw [withOld_ite, textnode_withOld (d3 ▸ h) (d3 ▸ hq)]
  rw [htext]
  generalize (if q.type = .text then textnode n q left width c3 else c3 : Cursor) = c4
  -- the moves behind it, and the image
  rw [show (c4.withOld g).cy = c4.cy from rfl, hmove (q.tag = .br) c4 left (c4.cy + 24)]
  generalize (if q.tag = .br then _ else c4 : Cursor) = c5
  rw [show (c5.withOld g).cy = c5.cy from rfl, hmove (q.tag = .hr) c5 left (c5.cy + 12)]
  generalize (if q.tag = .hr then _ else c5 : Cursor) = c6
  rw [withOld_ite]
  congr 1
  unfold placeImage
  simp only [Cursor.withOld, emit_withOld]
  rfl

/-- The walk is the same. -/
theorem walk_withOld (g : ℕ → UInt8) (fuel : ℕ) : ∀ (n : ℕ) (left width : ℤ) {cur : Cursor},
    TextBacked cur.doc →
    walk fuel n left width (cur.withOld g) = (walk fuel n left width cur).withOld g := by
  induction fuel with
  | zero => exact fun _ _ _ _ _ => rfl
  | succ fuel ih =>
    intro n left width cur h
    have hlist : ∀ (cs : List ℕ) (l w : ℤ) {cur' : Cursor}, TextBacked cur'.doc →
        cs.foldl (fun cur c => walk fuel c l w cur) (cur'.withOld g)
          = (cs.foldl (fun cur c => walk fuel c l w cur) cur').withOld g := by
      intro cs l w
      induction cs with
      | nil => exact fun _ => rfl
      | cons c cs ihcs =>
        intro cur' h'
        obtain ⟨⟨ps, hdoc⟩, -⟩ := walk_visited fuel c l w cur'
        have hnext : TextBacked (walk fuel c l w cur').doc := by
          rw [hdoc]
          exact h'
        rw [List.foldl_cons, List.foldl_cons, ih c l w h', ihcs hnext]
    have hnodes : (cur.withOld g).doc.nodes = cur.doc.nodes := rfl
    rw [walk, walk, hnodes]
    cases hq : cur.doc.nodes[n]? with
    | none => rfl
    | some q =>
      simp only
      have hhidden : hidden (cur.withOld g).doc n = hidden cur.doc n := h.hidden_withOld n g
      rw [hhidden]
      split
      · rfl
      · have hbefore : walkBefore n q left width
            (Cursor.withOld { cur with visited := cur.visited ++ [n] } g)
              = (walkBefore n q left width { cur with visited := cur.visited ++ [n] }).withOld g :=
          @walkBefore_withOld { cur with visited := cur.visited ++ [n] } h n q
            (List.mem_of_getElem? hq) left width g
        obtain ⟨⟨ps, hdoc⟩, -⟩ :=
          walkBefore_placed n q left width { cur with visited := cur.visited ++ [n] }
        have hnext : TextBacked
            (walkBefore n q left width { cur with visited := cur.visited ++ [n] }).doc := by
          rw [hdoc]
          exact h
        have hchildren : children (cur.withOld g).doc n = children cur.doc n := rfl
        show walkAfter q left (List.foldl _ (walkBefore n q left width
          (Cursor.withOld { cur with visited := cur.visited ++ [n] } g)) _) = _
        rw [hbefore, hlist _ _ _ hnext]
        unfold walkAfter
        rw [withOld_ite]
        rfl

theorem asterLayout_withOld {d : Document} (h : TextBacked d) (width : ℤ) (g : ℕ → UInt8) :
    asterLayout (d.withOld g) width = (asterLayout d width).withOld g := by
  have hwalk : layoutWalk (d.withOld g) width = (layoutWalk d width).withOld g :=
    @walk_withOld g d.nodes.length 0 0 _ ⟨d.withPaint [], 0, 0, []⟩ h
  unfold asterLayout
  rw [hwalk]
  rfl

/-! ## The spans of the paint list -/

/-- The span is empty or lies in a slice. -/
def Span.Within (s : Span) (sl : Slice) : Prop :=
  s.len = 0 ∨ (sl.off ≤ s.off ∧ s.off + s.len ≤ sl.off + sl.len)

theorem Span.Within.self (sl : Slice) : sl.toSpan.Within sl := .inr ⟨le_rfl, le_rfl⟩

/-- The text and the image address of a paint item belong to one node, its link to a link node. -/
structure ItemOwn (d : Document) (i : PaintItem) : Prop where
  own : ∃ n ∈ d.nodes, i.text.Within n.text ∧ i.src.Within n.src
  link : i.href.len = 0 ∨ ∃ n ∈ d.nodes, n.tag = .a ∧ i.href = n.href.toSpan

theorem TextBacked.within {d : Document} (h : TextBacked d) {n : Node} (hn : n ∈ d.nodes)
    {sl : Slice} (hsl : sl ∈ n.slices) {s : Span} (hs : s.Within sl) : Stored d s := by
  rcases hs with hlen | ⟨hoff, hle⟩
  · exact .inl hlen
  · rcases h.slice_stored hn hsl with hzero | hstored
    · exact .inl (by omega)
    · exact .inr (hle.trans hstored)

theorem link_mem {d : Document} {n : ℕ} {q : Node} (h : link d n = some q) :
    q ∈ d.nodes ∧ q.tag = .a := by
  obtain ⟨i, -, hi⟩ := List.exists_of_findSome?_eq_some h
  cases hq : d.nodes[i]? with
  | none => simp [hq] at hi
  | some q' =>
    simp only [hq] at hi
    split at hi
    · next hlink =>
      obtain rfl := Option.some.inj hi
      exact ⟨List.mem_of_getElem? hq, hlink.1⟩
    · cases hi

section

variable {d₀ : Document}

/-- All items of a paint list are owned. -/
def AllOwn (d₀ : Document) (ps : List PaintItem) : Prop := ∀ i ∈ ps, ItemOwn d₀ i

theorem emit_own {d : Document} (h : AllOwn d₀ d.paint) (x y w hh : ℤ) (scale : ℕ) (flags : UInt8)
    (col : ℕ) {text src : Span} {l : Option Node}
    (hown : ∃ n ∈ d₀.nodes, text.Within n.text ∧ src.Within n.src)
    (hl : ∀ q ∈ l, q ∈ d₀.nodes ∧ q.tag = .a) :
    AllOwn d₀ (emit d x y w hh scale flags col text l src).paint := by
  unfold emit
  split
  · exact h
  · intro i hi
    rcases List.mem_append.mp hi with hi | hi
    · exact h i hi
    · rw [List.mem_singleton.mp hi]
      refine ⟨hown, ?_⟩
      cases l with
      | none => exact .inl rfl
      | some q => exact .inr ⟨q, (hl q rfl).1, (hl q rfl).2, rfl⟩

/-- The words of a text node lie in its text. -/
theorem wordLoop_own {look : TextLook} {q : Node} (left width : ℤ) (hq : q ∈ d₀.nodes)
    (hfit : q.text.len ≠ 0 → q.text.off + q.text.len ≤ 24575)
    (hl : ∀ l ∈ look.link, l ∈ d₀.nodes ∧ l.tag = .a) (fuel : ℕ) :
    ∀ {p : ℕ} {s : List UInt8} {cur : Cursor}, p + s.length = q.text.len →
      AllOwn d₀ cur.doc.paint →
      AllOwn d₀ (wordLoop look q.text.off left width fuel p s cur).doc.paint := by
  induction fuel with
  | zero => exact fun _ h => h
  | succ fuel ih =>
    intro p s cur hlen h
    rw [wordLoop]
    simp only
    split
    · exact h
    · next hs =>
      -- the blanks and the word are parts of the rest of the text
      have hblank := congrArg List.length (@List.takeWhile_append_dropWhile _ (· = (32 : UInt8)) s)
      have hword := congrArg List.length (@List.takeWhile_append_dropWhile _ (· ≠ (32 : UInt8))
        (s.dropWhile (· = 32)))
      rw [List.length_append] at hblank hword
      refine ih (by omega) ?_
      have hwrap : ∀ ww, (wrapLine look left width ww cur).doc = cur.doc := by
        intro ww
        unfold wrapLine
        split <;> rfl
      simp only [hwrap]
      refine emit_own h _ _ _ _ _ _ _ ⟨q, hq, ?_, .inl rfl⟩ hl
      have hpos : 0 < (s.dropWhile (· = 32)).length := List.length_pos_of_ne_nil hs
      have hbound := hfit (by omega)
      refine .inr ⟨?_, ?_⟩
      · simp only [u16]
        omega
      · simp only [u16]
        omega

theorem textnode_own (h : TextBacked d₀) {n : ℕ} {q : Node} (left width : ℤ) {cur : Cursor}
    (hq : q ∈ d₀.nodes) (hdoc : ∃ ps, cur.doc = d₀.withPaint ps)
    (hown : AllOwn d₀ cur.doc.paint) : AllOwn d₀ (textnode n q left width cur).doc.paint := by
  unfold textnode
  simp only
  apply wordLoop_own left width hq
  · intro hne
    have hheld := h.1 q hq q.text (by simp [Node.slices]) hne
    exact hheld.1.trans hheld.2.1
  · intro l hl
    obtain ⟨ps, hps⟩ := hdoc
    rw [hps] at hl
    exact link_mem hl
  · rw [Nat.zero_add, length_bytes]
  · split <;> exact hown

theorem walkBefore_own (h : TextBacked d₀) {n : ℕ} {q : Node} (left width : ℤ) {cur : Cursor}
    (hq : q ∈ d₀.nodes) (hdoc : ∃ ps, cur.doc = d₀.withPaint ps)
    (hown : AllOwn d₀ cur.doc.paint) : AllOwn d₀ (walkBefore n q left width cur).doc.paint := by
  have hmove : ∀ (c : Prop) [Decidable c] {a : Cursor} (cx cy : ℤ),
      ((∃ ps, a.doc = d₀.withPaint ps) ∧ AllOwn d₀ a.doc.paint) →
      (∃ ps, (if c then { a with cx := cx, cy := cy } else a).doc = d₀.withPaint ps) ∧
        AllOwn d₀ (if c then { a with cx := cx, cy := cy } else a).doc.paint := by
    intro c _ a cx cy ha
    split <;> exact ha
  unfold walkBefore
  simp only
  have h1 := hmove (block q.tag = true ∧ cur.cx ≠ left) left (cur.cy + 24) ⟨hdoc, hown⟩
  generalize (if block q.tag = true ∧ cur.cx ≠ left then _ else cur : Cursor) = c1 at h1 ⊢
  have h2 := hmove (spaced q.tag = true) c1.cx (c1.cy + 8) h1
  generalize (if spaced q.tag = true then _ else c1 : Cursor) = c2 at h2 ⊢
  have h3 := hmove (q.tag = .li ∨ q.tag = .blockquote) (innerBox q.tag left width).1 c2.cy h2
  generalize (if q.tag = .li ∨ q.tag = .blockquote then _ else c2 : Cursor) = c3 at h3 ⊢
  have h4 : (∃ ps, (if q.type = .text then textnode n q left width c3 else c3).doc
        = d₀.withPaint ps) ∧
      AllOwn d₀ (if q.type = .text then textnode n q left width c3 else c3).doc.paint := by
    split
    · obtain ⟨⟨ps, hps⟩, -⟩ := textnode_placed n q left width c3
      obtain ⟨ps', hps'⟩ := h3.1
      exact ⟨⟨ps, by rw [hps, hps']; rfl⟩, textnode_own h left width hq h3.1 h3.2⟩
    · exact h3
  generalize (if q.type = .text then textnode n q left width c3 else c3 : Cursor) = c4 at h4 ⊢
  have h5 := hmove (q.tag = .br) left (c4.cy + 24) h4
  generalize (if q.tag = .br then _ else c4 : Cursor) = c5 at h5 ⊢
  have h6 := hmove (q.tag = .hr) left (c5.cy + 12) h5
  generalize (if q.tag = .hr then _ else c5 : Cursor) = c6 at h6 ⊢
  split
  · refine emit_own h6.2 _ _ _ _ _ _ _ ⟨q, hq, Span.Within.self _, Span.Within.self _⟩ ?_
    intro l hl
    obtain ⟨ps, hps⟩ := h6.1
    rw [hps] at hl
    exact link_mem hl
  · exact h6.2

/-- **Every item that the walk places is owned.** -/
theorem walk_own (h : TextBacked d₀) (fuel : ℕ) : ∀ (n : ℕ) (left width : ℤ) {cur : Cursor},
    (∃ ps, cur.doc = d₀.withPaint ps) → AllOwn d₀ cur.doc.paint →
    AllOwn d₀ (walk fuel n left width cur).doc.paint := by
  induction fuel with
  | zero => exact fun _ _ _ _ _ hown => hown
  | succ fuel ih =>
    intro n left width cur hdoc hown
    have hlist : ∀ (cs : List ℕ) (l w : ℤ) {cur' : Cursor}, (∃ ps, cur'.doc = d₀.withPaint ps) →
        AllOwn d₀ cur'.doc.paint →
        AllOwn d₀ (cs.foldl (fun cur c => walk fuel c l w cur) cur').doc.paint := by
      intro cs l w
      induction cs with
      | nil => exact fun _ hown' => hown'
      | cons c cs ihcs =>
        intro cur' hdoc' hown'
        obtain ⟨⟨ps, hps⟩, -⟩ := walk_visited fuel c l w cur'
        obtain ⟨ps', hps'⟩ := hdoc'
        rw [List.foldl_cons]
        exact ihcs ⟨ps, by rw [hps, hps']; rfl⟩ (ih c l w ⟨ps', hps'⟩ hown')
    rw [walk]
    split
    · exact hown
    · next q hq =>
      simp only
      split
      · exact hown
      · have hmem : q ∈ d₀.nodes := by
          obtain ⟨ps, hps⟩ := hdoc
          rw [hps] at hq
          exact List.mem_of_getElem? hq
        have hafter : ∀ c : Cursor, (walkAfter q left c).doc = c.doc := by
          intro c
          unfold walkAfter
          split <;> rfl
        rw [hafter]
        obtain ⟨⟨ps, hps⟩, -⟩ :=
          walkBefore_placed n q left width { cur with visited := cur.visited ++ [n] }
        obtain ⟨ps', hps'⟩ := hdoc
        refine hlist _ _ _ ⟨ps, ?_⟩ (walkBefore_own h left width hmem ⟨ps', hps'⟩ hown)
        rw [hps]
        show cur.doc.withPaint ps = _
        rw [hps']
        rfl

end

theorem asterLayout_own {d : Document} (h : TextBacked d) (width : ℤ) :
    AllOwn d (asterLayout d width).paint :=
  @walk_own d h d.nodes.length 0 0 _ ⟨d.withPaint [], 0, 0, []⟩ ⟨[], rfl⟩
    (fun _ hi => absurd hi List.not_mem_nil)

/-! ## Pages -/

/-- The readers of a document read stored text only, and only text that was stored for the node they
read it for. -/
structure ReadsStored (d : Document) : Prop where
  layout : ∀ g width, asterLayout (d.withOld g) width = (asterLayout d width).withOld g
  items : ∀ width, ∀ i ∈ (asterLayout d width).paint, ItemOwn d i ∧
    Stored d i.text ∧ Stored d i.src ∧ Stored d i.href
  paint : ∀ g width gfx x y w h scroll,
    asterPaint gfx ((asterLayout d width).withOld g) x y w h scroll
      = asterPaint gfx (asterLayout d width) x y w h scroll
  link : ∀ g width x y scroll cap,
    asterLinkAt ((asterLayout d width).withOld g) x y scroll cap
      = asterLinkAt (asterLayout d width) x y scroll cap

theorem asterPaint_withOld {d : Document} (gfx : Gfx)
    (h : ∀ i ∈ d.paint, Stored d i.text ∧ Stored d i.src) (x y w hh scroll : ℤ) (g : ℕ → UInt8) :
    asterPaint gfx (d.withOld g) x y w hh scroll = asterPaint gfx d x y w hh scroll := by
  unfold asterPaint
  show d.paint.flatMap _ = d.paint.flatMap _
  apply List.flatMap_congr
  intro i hi
  obtain ⟨htext, hsrc⟩ := h i hi
  have hstr : ∀ (cap : ℕ) {s : Span}, Stored d s → (d.withOld g).str cap s = d.str cap s := by
    intro cap s hs
    unfold Document.str
    rw [bytes_withOld hs]
  have himage : ∀ py, paintImage gfx (d.withOld g) i x py = paintImage gfx d i x py := by
    intro py
    unfold paintImage
    rw [hstr 256 hsrc, hstr 96 htext]
  have hword : ∀ py, paintText gfx (d.withOld g) i x py = paintText gfx d i x py := by
    intro py
    unfold paintText
    rw [hstr 160 htext]
  simp only [himage, hword]

theorem asterLinkAt_withOld {d : Document} (h : ∀ i ∈ d.paint, Stored d i.href)
    (x y scroll : ℤ) (cap : ℕ) (g : ℕ → UInt8) :
    asterLinkAt (d.withOld g) x y scroll cap = asterLinkAt d x y scroll cap := by
  unfold asterLinkAt
  split
  · rfl
  · simp only
    show Option.map _ (d.paint.reverse.find? _) = _
    generalize hfind : d.paint.reverse.find? _ = r
    cases r with
    | none => rfl
    | some i =>
      have hi : i ∈ d.paint := List.mem_reverse.mp (List.mem_of_find?_eq_some hfind)
      simp only [Option.map_some, bytes_withOld (h i hi)]

theorem readsStored_of_backed {d : Document} (h : TextBacked d) : ReadsStored d := by
  have hitems : ∀ width, ∀ i ∈ (asterLayout d width).paint, ItemOwn d i ∧
      Stored d i.text ∧ Stored d i.src ∧ Stored d i.href := by
    intro width i hi
    have hown := asterLayout_own h width i hi
    obtain ⟨n, hn, htext, hsrc⟩ := hown.own
    refine ⟨hown, h.within hn (by simp [Node.slices]) htext, h.within hn (by simp [Node.slices]) hsrc,
      ?_⟩
    rcases hown.link with hlen | ⟨a, ha, -, heq⟩
    · exact .inl hlen
    · rw [heq]
      exact h.slice_stored ha (by simp [Node.slices])
  have htext : ∀ width, (asterLayout d width).text = d.text := by
    intro width
    obtain ⟨⟨ps, hps⟩, -⟩ := walk_visited d.nodes.length 0 0 (if width < 120 then 120 else width)
      ⟨d.withPaint [], 0, 0, []⟩
    show (walk d.nodes.length 0 0 _ ⟨d.withPaint [], 0, 0, []⟩).doc.text = d.text
    rw [hps]
    rfl
  have hstored : ∀ width {s : Span}, Stored d s → Stored (asterLayout d width) s := by
    intro width s hs
    unfold Stored
    rw [htext]
    exact hs
  refine ⟨fun g width => asterLayout_withOld h width g, hitems, ?_, ?_⟩
  · intro g width gfx x y w hh scroll
    refine asterPaint_withOld gfx (fun i hi => ?_) x y w hh scroll g
    obtain ⟨-, h1, h2, -⟩ := hitems width i hi
    exact ⟨hstored width h1, hstored width h2⟩
  · intro g width x y scroll cap
    refine asterLinkAt_withOld (fun i hi => ?_) x y scroll cap g
    exact hstored width (hitems width i hi).2.2.2

/-! ## A page with one long attribute -/

/-- A page with one link, whose `id` has `n` characters. -/
def idPage (n : ℕ) : List UInt8 := ascii "<a id=" ++ List.replicate n 120 ++ [62]

theorem takeWhile_replicate_append {p : UInt8 → Bool} (hp : p 120 = true) (n : ℕ) (rest : List UInt8) :
    (List.replicate n 120 ++ rest).takeWhile p = List.replicate n 120 ++ rest.takeWhile p :=
  List.takeWhile_append_of_pos fun c hc => by rw [List.eq_of_mem_replicate hc, hp]

theorem dropWhile_replicate_append {p : UInt8 → Bool} (hp : p 120 = true) (n : ℕ) (rest : List UInt8) :
    (List.replicate n 120 ++ rest).dropWhile p = rest.dropWhile p :=
  List.dropWhile_append_of_pos fun c hc => by rw [List.eq_of_mem_replicate hc, hp]

theorem attr_id (n : ℕ) (want : List UInt8) :
    attr (ascii " id=" ++ List.replicate (n + 1) 120) want
      = if eqn (ascii "id") want then some (List.replicate (n + 1) 120) else none := by
  have hs : ascii " id=" ++ List.replicate (n + 1) 120
      = 32 :: 105 :: 100 :: 61 :: List.replicate (n + 1) 120 := rfl
  have htake := takeWhile_replicate_append (p := attrPlainChar) (by decide) (n + 1) []
  have hdrop := dropWhile_replicate_append (p := attrPlainChar) (by decide) (n + 1) []
  simp only [List.append_nil, List.takeWhile_nil, List.dropWhile_nil] at htake hdrop
  have hsp : (List.replicate (n + 1) (120 : UInt8)).dropWhile sp = List.replicate (n + 1) 120 := rfl
  have hvalue : attrValue (List.replicate (n + 1) 120) = (List.replicate (n + 1) 120, []) := by
    rw [List.replicate_succ, attrValue, if_neg (by decide), ← List.replicate_succ, htake, hdrop]
  rw [hs, attr]
  show attrLoop want ((List.replicate (n + 1) 120).length + 3 + 1) _ = _
  rw [attrLoop, if_neg (by simp)]
  show (if eqn (ascii "id") want then some (attrValue ((List.replicate (n + 1) 120).dropWhile sp)).1
    else attrLoop want _ (attrValue ((List.replicate (n + 1) 120).dropWhile sp)).2) = _
  rw [hsp, hvalue]
  split
  · rfl
  · rw [attrLoop, if_pos rfl]

theorem idPage_texts (n : ℕ) :
    pageTexts (idPage (n + 1)) = [[], [], List.replicate (n + 1) 120, [], []] := by
  have hpage : idPage (n + 1)
      = 60 :: 97 :: 32 :: 105 :: 100 :: 61 :: (List.replicate (n + 1) 120 ++ [62]) := rfl
  have hcstr : cstr (idPage (n + 1)) = idPage (n + 1) := by
    refine List.takeWhile_eq_self_iff.mpr fun c hc => ?_
    rw [hpage] at hc
    simp only [List.mem_cons, List.mem_append, List.mem_replicate, List.not_mem_nil, or_false] at hc
    rcases hc with rfl | rfl | rfl | rfl | rfl | rfl | ⟨-, rfl⟩ | rfl <;> decide
  have htok : nextToken (idPage (n + 1))
      = (.element .a (ascii " id=" ++ List.replicate (n + 1) 120)
          (selfClosing (ascii " id=" ++ List.replicate (n + 1) 120)), []) := by
    have hopen : nextToken (idPage (n + 1))
        = openToken .a (ascii " id=" ++ (List.replicate (n + 1) 120 ++ [62])) := rfl
    have htake : (ascii " id=" ++ (List.replicate (n + 1) 120 ++ [62])).takeWhile (· ≠ 62)
        = ascii " id=" ++ List.replicate (n + 1) 120 := by
      rw [List.takeWhile_append_of_pos (by decide +kernel), takeWhile_replicate_append (by decide)]
      simp
    have hdrop : (ascii " id=" ++ (List.replicate (n + 1) 120 ++ [62])).dropWhile (· ≠ 62) = [62] := by
      rw [List.dropWhile_append_of_pos (by decide +kernel), dropWhile_replicate_append (by decide)]
      rfl
    rw [hopen, openToken]
    simp only [afterGt, htake, hdrop]
    rfl
  have hloop : pageTexts (idPage (n + 1))
      = attrTexts (ascii " id=" ++ List.replicate (n + 1) 120) := by
    rw [pageTexts, hcstr, hpage, List.length_cons, ← hpage, pageTextsLoop, if_neg (by
      rw [hpage]
      simp [asterMaxNodes]), htok]
    show attrTexts _ ++ pageTextsLoop _ [] _ _ = _
    rw [show pageTextsLoop _ [] _ _ = [] from by rw [List.length_cons, pageTextsLoop, if_pos (.inl rfl)],
      List.append_nil]
  rw [hloop, attrTexts]
  simp only [attr_id]
  rfl

/-! ## When the text of a page is backed -/

/-- **When the text of a page is backed.**  Every slice of a parsed document holds the bytes that were
stored for it, and the readers read stored text only, exactly when each text of the page fits into
the rest of the pool when its turn comes. -/
theorem aster_text_backed_iff (d₀ : Document) (h : List UInt8) :
    (TextBacked (asterParseHtml d₀ h).2 ∧ ReadsStored (asterParseHtml d₀ h).2) ↔
      AllFit [] (pageTexts h) := by
  rw [← textBacked_iff d₀ h]
  exact ⟨fun hb => hb.1, fun hb => ⟨hb, readsStored_of_backed hb⟩⟩

/-- An `id` of 24576 characters does not fit: its slice is one byte longer than the stored text. -/
theorem aster_text_not_backed :
    ¬ (TextBacked (asterParseHtml Document.zero (idPage 24576)).2 ∧
      ReadsStored (asterParseHtml Document.zero (idPage 24576)).2) := by
  rintro ⟨hbacked, -⟩
  rw [textBacked_iff, idPage_texts] at hbacked
  obtain ⟨-, -, hfits, -⟩ := hbacked
  have hempty : poolAfter [] [] = [] := by
    rw [poolAfter, if_pos (.inl rfl)]
  rw [hempty, hempty] at hfits
  unfold Fits at hfits
  rw [List.length_replicate, List.length_nil] at hfits
  rcases hfits with hzero | hroom | ⟨hfull, -⟩
  · exact absurd hzero (by decide)
  · exact absurd hroom (by decide)
  · exact absurd hfull (by decide)

end Orion.Aster
