import Mathlib.Data.List.Nodup
import Orion.Aster.Tree

/-!
# Walks over the tree

In a tree of the parser the walk to the root ends there, and the walk of the layout is called at most
once for each node, and once for every node if nothing is hidden.
-/

namespace Orion.Aster

/-! ## Upwards -/

/-- The walk to the root ends at the root, whatever fuel it has beyond the index of the node. -/
theorem parentChain_spec {nodes : List Node} (h : Tree nodes) : ∀ (n : ℕ), n < nodes.length →
    ∀ {fuel : ℕ}, n < fuel → parentChain nodes fuel (some n) = parentChain nodes (n + 1) (some n) ∧
      (parentChain nodes fuel (some n)).getLast? = some 0 := by
  intro n
  induction n using Nat.strong_induction_on with
  | _ n ih =>
    intro hn fuel hfuel
    obtain ⟨fuel, rfl⟩ : ∃ k, fuel = k + 1 := ⟨fuel - 1, by omega⟩
    obtain ⟨q, hq⟩ : ∃ q, nodes[n]? = some q := ⟨nodes[n], List.getElem?_eq_getElem hn⟩
    simp only [parentChain, hq]
    rcases Nat.eq_zero_or_pos n with rfl | hpos
    · obtain ⟨q0, hq0, hnone⟩ := h.root
      obtain rfl := Option.some.inj (hq.symm.trans hq0)
      rw [hnone]
      cases fuel <;> exact ⟨rfl, rfl⟩
    · obtain ⟨p, hp, hparent⟩ := h.parent_lt hq hpos
      rw [hparent]
      have hfull := ih p hp (by omega) (show p < fuel by omega)
      have hless := ih p hp (by omega) (show p < n from hp)
      refine ⟨by rw [hfull.1, hless.1], ?_⟩
      rw [List.getLast?_cons, hfull.2]
      rfl

theorem ancestors_getLast {d : Document} (h : Tree d.nodes) {n : ℕ} (hn : n < d.nodes.length) :
    (ancestors d n).getLast? = some 0 :=
  (parentChain_spec h n hn hn).2

/-! ## Downwards -/

/-- The children of a node are the nodes whose parent it is, in order. -/
theorem children_eq {d : Document} (h : Tree d.nodes) {n : ℕ} (hn : n < d.nodes.length) :
    children d n = kids d.nodes n := by
  have hq : d.nodes[n]? = some d.nodes[n] := List.getElem?_eq_getElem hn
  rw [children, hq]
  exact (h.chain hq).siblings_eq (kids_length_le d.nodes n)

/-- The nodes that `walk` is called for, below and with node `n`. -/
def visits (d : Document) : ℕ → ℕ → List ℕ
  | 0, _ => []
  | fuel + 1, n =>
    match d.nodes[n]? with
    | none => []
    | some _ => n :: if hidden d n then [] else (children d n).flatMap (visits d fuel)

/-- Node `x` is `n` or below it. -/
inductive Below (nodes : List Node) (n : ℕ) : ℕ → Prop
  | refl : Below nodes n n
  | step {x p : ℕ} {q : Node} : nodes[x]? = some q → q.parent = some p → Below nodes n p →
      Below nodes n x

section

variable {nodes : List Node} (h : Tree nodes)

include h

theorem Below.le {n x : ℕ} (hb : Below nodes n x) : n ≤ x := by
  induction hb with
  | refl => exact le_rfl
  | step hq hp _ ih => exact ih.trans (h.kid_gt (mem_kids.mpr ⟨_, hq, hp⟩)).le

omit h in
theorem Below.trans {a b x : ℕ} (hab : Below nodes a b) (hbx : Below nodes b x) :
    Below nodes a x := by
  induction hbx with
  | refl => exact hab
  | step hq hp _ ih => exact .step hq hp ih

omit h in
/-- Two nodes above one node are one above the other. -/
theorem Below.comparable {a b x : ℕ} (ha : Below nodes a x) (hb : Below nodes b x) :
    Below nodes a b ∨ Below nodes b a := by
  induction ha with
  | refl => exact .inr hb
  | @step x p q hq hp hap ih =>
    cases hb with
    | refl => exact .inl (.step hq hp hap)
    | @step _ p' q' hq' hp' hbp =>
      obtain rfl := Option.some.inj (hq.symm.trans hq')
      obtain rfl := Option.some.inj (hp.symm.trans hp')
      exact ih hbp

/-- The nodes below two children of one node are different. -/
theorem Below.disjoint {n c c' x : ℕ} (hc : c ∈ kids nodes n) (hc' : c' ∈ kids nodes n)
    (hx : Below nodes c x) (hx' : Below nodes c' x) : c = c' := by
  -- if one child were below the other, it would be below their parent
  have key : ∀ {a b : ℕ}, a ∈ kids nodes n → b ∈ kids nodes n → Below nodes a b → a = b := by
    intro a b ha hb hab
    cases hab with
    | refl => rfl
    | @step _ p q hq hp hap =>
      obtain ⟨q', hq', hn⟩ := mem_kids.mp hb
      obtain rfl := Option.some.inj (hq.symm.trans hq')
      obtain rfl := Option.some.inj (hp.symm.trans hn)
      have h1 := h.kid_gt ha
      have h2 := hap.le h
      omega
  rcases Below.comparable hx hx' with hb | hb
  · exact key hc hc' hb
  · exact (key hc' hc hb).symm

omit h in
/-- Below a node, but not the node itself, is below one of its children. -/
theorem Below.child {n x : ℕ} (hb : Below nodes n x) (hne : x ≠ n) :
    ∃ c ∈ kids nodes n, Below nodes c x := by
  induction hb with
  | refl => exact absurd rfl hne
  | @step x p q hq hp hbp ih =>
    by_cases hpn : p = n
    · subst hpn
      exact ⟨x, mem_kids.mpr ⟨q, hq, hp⟩, .refl⟩
    · obtain ⟨c, hc, hcp⟩ := ih hpn
      exact ⟨c, hc, .step hq hp hcp⟩

theorem Tree.below_root {x : ℕ} (hx : x < nodes.length) : Below nodes 0 x := by
  induction x using Nat.strong_induction_on with
  | _ x ih =>
    rcases Nat.eq_zero_or_pos x with rfl | hpos
    · exact .refl
    · have hq : nodes[x]? = some nodes[x] := List.getElem?_eq_getElem hx
      obtain ⟨p, hp, hparent⟩ := h.parent_lt hq hpos
      exact .step hq hparent (ih p hp (by omega))

end

section

variable {d : Document} (h : Tree d.nodes)

include h

/-- The walk stays below the node. -/
theorem below_of_mem_visits : ∀ {fuel n x : ℕ}, x ∈ visits d fuel n → Below d.nodes n x := by
  intro fuel
  induction fuel with
  | zero =>
    intro n x hx
    simp [visits] at hx
  | succ fuel ih =>
    intro n x hx
    rw [visits] at hx
    split at hx
    · simp at hx
    · next q hq =>
      rcases List.mem_cons.mp hx with rfl | hx
      · exact .refl
      split at hx
      · simp at hx
      · rw [children_eq h (List.getElem?_eq_some_iff.mp hq).1] at hx
        obtain ⟨c, hc, hxc⟩ := List.mem_flatMap.mp hx
        obtain ⟨r, hr, hrn⟩ := mem_kids.mp hc
        exact (Below.step hr hrn .refl).trans (ih hxc)

omit h in
theorem lt_of_mem_visits : ∀ {fuel n x : ℕ}, x ∈ visits d fuel n → x < d.nodes.length := by
  intro fuel
  induction fuel with
  | zero =>
    intro n x hx
    simp [visits] at hx
  | succ fuel ih =>
    intro n x hx
    rw [visits] at hx
    split at hx
    · simp at hx
    · next q hq =>
      rcases List.mem_cons.mp hx with rfl | hx
      · exact (List.getElem?_eq_some_iff.mp hq).1
      split at hx
      · simp at hx
      · obtain ⟨c, -, hxc⟩ := List.mem_flatMap.mp hx
        exact ih hxc

/-- **The walk is called at most once for a node.** -/
theorem visits_nodup : ∀ (fuel n : ℕ), (visits d fuel n).Nodup := by
  intro fuel
  induction fuel with
  | zero =>
    intro n
    exact List.nodup_nil
  | succ fuel ih =>
    intro n
    rw [visits]
    split
    · exact List.nodup_nil
    · next q hq =>
      split
      · exact List.nodup_singleton n
      · rw [children_eq h (List.getElem?_eq_some_iff.mp hq).1, List.nodup_cons]
        constructor
        · intro hmem
          obtain ⟨c, hc, hn⟩ := List.mem_flatMap.mp hmem
          have hgt := h.kid_gt hc
          have hle := (below_of_mem_visits h hn).le h
          omega
        · rw [List.nodup_flatMap]
          refine ⟨fun c _ => ih c, ?_⟩
          refine (kids_nodup d.nodes n).imp_of_mem ?_
          intro c c' hc hc' hne x hx hx'
          exact hne (Below.disjoint h hc hc' (below_of_mem_visits h hx) (below_of_mem_visits h hx'))

/-- **If nothing is hidden, the walk is called for every node.** -/
theorem mem_visits (hvisible : ∀ n, hidden d n = false) : ∀ {fuel n x : ℕ},
    d.nodes.length ≤ fuel + n → Below d.nodes n x → x < d.nodes.length → x ∈ visits d fuel n := by
  intro fuel
  induction fuel with
  | zero =>
    intro n x hfuel hb hx
    have hle := hb.le h
    omega
  | succ fuel ih =>
    intro n x hfuel hb hx
    have hle := hb.le h
    have hn : n < d.nodes.length := by omega
    rw [visits, List.getElem?_eq_getElem hn]
    simp only [hvisible n, Bool.false_eq_true, if_false]
    rw [List.mem_cons]
    by_cases hne : x = n
    · exact .inl hne
    · obtain ⟨c, hc, hcx⟩ := hb.child hne
      have hgt := h.kid_gt hc
      rw [children_eq h hn]
      exact .inr (List.mem_flatMap.mpr ⟨c, hc, ih (by omega) hcx hx⟩)

end

/-! ## The walk of the layout -/

/-- The document with another paint list. -/
def Document.withPaint (d : Document) (paint : List PaintItem) : Document :=
  { d with paint := paint }

theorem hidden_withPaint (d : Document) (ps : List PaintItem) (n : ℕ) :
    hidden (d.withPaint ps) n = hidden d n := rfl

theorem children_withPaint (d : Document) (ps : List PaintItem) (n : ℕ) :
    children (d.withPaint ps) n = children d n := rfl

theorem visits_withPaint (d : Document) (ps : List PaintItem) : ∀ (fuel n : ℕ),
    visits (d.withPaint ps) fuel n = visits d fuel n := by
  intro fuel
  induction fuel with
  | zero => exact fun _ => rfl
  | succ fuel ih =>
    intro n
    have hrec : visits (d.withPaint ps) fuel = visits d fuel := funext ih
    simp only [visits, hidden_withPaint, children_withPaint, hrec]
    rfl

/-- Placing changes the position and the paint list. -/
def Placed (cur cur' : Cursor) : Prop :=
  (∃ ps, cur'.doc = cur.doc.withPaint ps) ∧ cur'.visited = cur.visited

theorem Placed.refl (cur : Cursor) : Placed cur cur := ⟨⟨cur.doc.paint, rfl⟩, rfl⟩

theorem Placed.trans {a b c : Cursor} (hab : Placed a b) (hbc : Placed b c) : Placed a c := by
  obtain ⟨⟨ps, hb⟩, hvb⟩ := hab
  obtain ⟨⟨ps', hc⟩, hvc⟩ := hbc
  refine ⟨⟨ps', ?_⟩, hvc.trans hvb⟩
  rw [hc, hb]
  rfl

theorem Placed.ite {c : Prop} [Decidable c] {a b b' : Cursor} (hb : Placed a b)
    (hb' : Placed a b') : Placed a (if c then b else b') := by
  split <;> assumption

/-- Moving the cursor places nothing. -/
theorem Placed.move (cur : Cursor) (cx cy : ℤ) : Placed cur { cur with cx := cx, cy := cy } :=
  Placed.refl cur

theorem emit_doc (d : Document) (x y w h : ℤ) (scale : ℕ) (flags : UInt8) (col : ℕ) (text : Span)
    (l : Option Node) (src : Span) :
    ∃ ps, emit d x y w h scale flags col text l src = d.withPaint ps := by
  unfold emit
  split
  · exact ⟨d.paint, rfl⟩
  · exact ⟨_, rfl⟩

theorem wrapLine_placed (look : TextLook) (left width ww : ℤ) (cur : Cursor) :
    Placed cur (wrapLine look left width ww cur) :=
  Placed.ite (Placed.move cur _ _) (Placed.refl cur)

theorem wordLoop_placed (look : TextLook) (off : ℕ) (left width : ℤ) (fuel : ℕ) :
    ∀ (p : ℕ) (s : List UInt8) (cur : Cursor),
      Placed cur (wordLoop look off left width fuel p s cur) := by
  induction fuel with
  | zero => exact fun _ _ cur => Placed.refl cur
  | succ fuel ih =>
    intro p s cur
    rw [wordLoop]
    simp only
    split
    · exact Placed.refl cur
    · refine Placed.trans ?_ (ih _ _ _)
      refine Placed.trans (wrapLine_placed look left width _ cur) ⟨?_, rfl⟩
      exact emit_doc _ _ _ _ _ _ _ _ _ _ _

theorem textnode_placed (n : ℕ) (q : Node) (left width : ℤ) (cur : Cursor) :
    Placed cur (textnode n q left width cur) := by
  refine Placed.trans ?_ (wordLoop_placed _ _ _ _ _ _ _ _)
  exact Placed.ite (Placed.move cur _ _) (Placed.refl cur)

theorem placeImage_placed (n : ℕ) (q : Node) (left width : ℤ) (cur : Cursor) :
    Placed cur (placeImage n q left width cur) :=
  ⟨emit_doc _ _ _ _ _ _ _ _ _ _ _, rfl⟩

theorem walkBefore_placed (n : ℕ) (q : Node) (left width : ℤ) (cur : Cursor) :
    Placed cur (walkBefore n q left width cur) := by
  have hmove : ∀ (c : Prop) [Decidable c] (a : Cursor) (cx cy : ℤ), Placed cur a →
      Placed cur (if c then { a with cx := cx, cy := cy } else a) := by
    intro c _ a cx cy ha
    exact Placed.ite (ha.trans (Placed.move a cx cy)) ha
  unfold walkBefore
  simp only
  have h1 := hmove (block q.tag = true ∧ cur.cx ≠ left) cur left (cur.cy + 24) (Placed.refl cur)
  generalize (if block q.tag = true ∧ cur.cx ≠ left then _ else cur : Cursor) = c1 at h1 ⊢
  have h2 := hmove (spaced q.tag = true) c1 c1.cx (c1.cy + 8) h1
  generalize (if spaced q.tag = true then _ else c1 : Cursor) = c2 at h2 ⊢
  have h3 := hmove (q.tag = .li ∨ q.tag = .blockquote) c2 (innerBox q.tag left width).1 c2.cy h2
  generalize (if q.tag = .li ∨ q.tag = .blockquote then _ else c2 : Cursor) = c3 at h3 ⊢
  have h4 : Placed cur (if q.type = .text then textnode n q left width c3 else c3) :=
    Placed.ite (h3.trans (textnode_placed n q left width c3)) h3
  generalize (if q.type = .text then textnode n q left width c3 else c3 : Cursor) = c4 at h4 ⊢
  have h5 := hmove (q.tag = .br) c4 left (c4.cy + 24) h4
  generalize (if q.tag = .br then _ else c4 : Cursor) = c5 at h5 ⊢
  have h6 := hmove (q.tag = .hr) c5 left (c5.cy + 12) h5
  generalize (if q.tag = .hr then _ else c5 : Cursor) = c6 at h6 ⊢
  exact Placed.ite (h6.trans (placeImage_placed n q left width c6)) h6

theorem walkAfter_placed (q : Node) (left : ℤ) (cur : Cursor) :
    Placed cur (walkAfter q left cur) :=
  Placed.ite (Placed.move cur _ _) (Placed.refl cur)

/-- **What `walk` is called for**, and that it changes the paint list only. -/
theorem walk_visited (fuel : ℕ) : ∀ (n : ℕ) (left width : ℤ) (cur : Cursor),
    (∃ ps, (walk fuel n left width cur).doc = cur.doc.withPaint ps) ∧
      (walk fuel n left width cur).visited = cur.visited ++ visits cur.doc fuel n := by
  induction fuel with
  | zero =>
    intro n left width cur
    exact ⟨⟨cur.doc.paint, rfl⟩, by simp [walk, visits]⟩
  | succ fuel ih =>
    intro n left width cur
    -- the calls for a list of children
    have hlist : ∀ (cs : List ℕ) (l w : ℤ) (cur' : Cursor),
        (∃ ps, (cs.foldl (fun cur c => walk fuel c l w cur) cur').doc = cur'.doc.withPaint ps) ∧
          (cs.foldl (fun cur c => walk fuel c l w cur) cur').visited
            = cur'.visited ++ cs.flatMap (visits cur'.doc fuel) := by
      intro cs l w
      induction cs with
      | nil =>
        intro cur'
        exact ⟨⟨cur'.doc.paint, rfl⟩, by simp⟩
      | cons c cs ihcs =>
        intro cur'
        obtain ⟨⟨ps, hdoc⟩, hvisited⟩ := ih c l w cur'
        obtain ⟨⟨ps', hdoc'⟩, hvisited'⟩ := ihcs (walk fuel c l w cur')
        refine ⟨⟨ps', ?_⟩, ?_⟩
        · rw [List.foldl_cons, hdoc', hdoc]
          rfl
        · rw [List.foldl_cons, hvisited', hvisited, hdoc, funext (visits_withPaint cur'.doc ps fuel)]
          simp
    rw [walk, visits]
    cases hq : cur.doc.nodes[n]? with
    | none => exact ⟨⟨cur.doc.paint, rfl⟩, by simp⟩
    | some q =>
      simp only
      split
      · exact ⟨⟨cur.doc.paint, rfl⟩, rfl⟩
      · obtain ⟨⟨ps, hdoc⟩, hvisited⟩ :=
          walkBefore_placed n q left width { cur with visited := cur.visited ++ [n] }
        generalize walkBefore n q left width { cur with visited := cur.visited ++ [n] } = cur'
          at hdoc hvisited ⊢
        obtain ⟨⟨ps', hdoc'⟩, hvisited'⟩ := hlist (children cur.doc n)
          (innerBox q.tag left width).1 (innerBox q.tag left width).2 cur'
        obtain ⟨⟨ps'', hdoc''⟩, hvisited''⟩ := walkAfter_placed q left
          ((children cur.doc n).foldl (fun cur c => walk fuel c (innerBox q.tag left width).1
            (innerBox q.tag left width).2 cur) cur')
        refine ⟨⟨ps'', ?_⟩, ?_⟩
        · rw [hdoc'', hdoc', hdoc]
          rfl
        · rw [hvisited'', hvisited', hvisited, hdoc]
          have hsame : visits (cur.doc.withPaint ps) fuel = visits cur.doc fuel :=
            funext (visits_withPaint cur.doc ps fuel)
          rw [show ({ cur with visited := cur.visited ++ [n] } : Cursor).doc = cur.doc from rfl, hsame]
          simp

/-- Every link leads to a larger index, so that as much fuel as there are nodes from `n` on is enough
for the walk below `n`. -/
theorem walk_fuel : ∀ {fuel fuel' n : ℕ} (left width : ℤ) {cur : Cursor}, Tree cur.doc.nodes →
    cur.doc.nodes.length ≤ fuel + n → cur.doc.nodes.length ≤ fuel' + n →
    walk fuel n left width cur = walk fuel' n left width cur := by
  have hmissing : ∀ {fuel n : ℕ} {left width : ℤ} {cur : Cursor}, cur.doc.nodes.length ≤ n →
      walk fuel n left width cur = cur := by
    intro fuel n left width cur hn
    cases fuel with
    | zero => rfl
    | succ fuel => rw [walk, List.getElem?_eq_none hn]
  intro fuel
  induction fuel with
  | zero =>
    intro fuel' n left width cur _ h _
    rw [hmissing (by omega), hmissing (by omega)]
  | succ fuel ih =>
    intro fuel' n left width cur htree h h'
    by_cases hn : cur.doc.nodes.length ≤ n
    · rw [hmissing hn, hmissing hn]
    obtain ⟨fuel', rfl⟩ : ∃ k, fuel' = k + 1 := ⟨fuel' - 1, by omega⟩
    have hlist : ∀ (cs : List ℕ) (l w : ℤ) (cur' : Cursor), cur'.doc.nodes = cur.doc.nodes →
        (∀ c ∈ cs, n < c) → cs.foldl (fun cur c => walk fuel c l w cur) cur'
          = cs.foldl (fun cur c => walk fuel' c l w cur) cur' := by
      intro cs l w
      induction cs with
      | nil => exact fun _ _ _ => rfl
      | cons c cs ihcs =>
        intro cur' hnodes hgt
        have hc := hgt c (by simp)
        obtain ⟨⟨ps, hdoc⟩, -⟩ := walk_visited fuel c l w cur'
        rw [List.foldl_cons, List.foldl_cons,
          ← @ih fuel' c l w cur' (hnodes ▸ htree) (by rw [hnodes]; omega) (by rw [hnodes]; omega)]
        refine ihcs _ ?_ fun x hx => hgt x (by simp [hx])
        rw [hdoc]
        exact hnodes
    rw [walk, walk]
    cases hq : cur.doc.nodes[n]? with
    | none => rfl
    | some q =>
      simp only
      split
      · rfl
      · obtain ⟨⟨ps, hdoc⟩, -⟩ :=
          walkBefore_placed n q left width { cur with visited := cur.visited ++ [n] }
        rw [hlist]
        · rw [hdoc]
          rfl
        · intro c hc
          rw [children_eq htree (by omega)] at hc
          exact htree.kid_gt hc

theorem layoutWalk_visited (d : Document) (width : ℤ) :
    (layoutWalk d width).visited = visits d d.nodes.length 0 := by
  have h := (walk_visited d.nodes.length 0 0 (if width < 120 then 120 else width)
    ⟨d.withPaint [], 0, 0, []⟩).2
  rw [visits_withPaint, List.nil_append] at h
  exact h

/-- **The tree of a parsed document.**  There are at most 384 nodes; the root is the only one without
a parent, and every other parent has a smaller index; the links of a node run through its children,
each once and in order.  Hence the walks to the root end there; the walk of the layout ends, and it is
called for every node at most once, and exactly once if nothing is hidden. -/
theorem aster_parse_html_tree (d₀ : Document) (h : List UInt8) :
    let d := (asterParseHtml d₀ h).2
    d.nodes.length ≤ 384 ∧
    (∀ i q, d.nodes[i]? = some q → (q.parent = none ↔ i = 0) ∧ ∀ p ∈ q.parent, p < i) ∧
    (∀ n < d.nodes.length, children d n = (List.range d.nodes.length).filter
      fun i => (d.nodes[i]?).bind Node.parent = some n) ∧
    (∀ n < d.nodes.length, (ancestors d n).getLast? = some 0 ∧
      ∀ fuel > n, parentChain d.nodes fuel (some n) = ancestors d n) ∧
    ∀ width : ℤ,
      (∀ fuel ≥ d.nodes.length, ∀ cur : Cursor, cur.doc.nodes = d.nodes →
        walk fuel 0 0 width cur = walk d.nodes.length 0 0 width cur) ∧
      (layoutWalk d width).visited.Nodup ∧
      ((∀ n, hidden d n = false) →
        (layoutWalk d width).visited.Perm (List.range d.nodes.length)) := by
  intro d
  have htree : Tree d.nodes := asterParseHtml_tree d₀ h
  refine ⟨htree.count, ?_, fun n hn => children_eq htree hn, ?_, ?_⟩
  · intro i q hq
    rcases Nat.eq_zero_or_pos i with rfl | hpos
    · obtain ⟨q0, hq0, hnone⟩ := htree.root
      obtain rfl := Option.some.inj (hq.symm.trans hq0)
      exact ⟨by simp [hnone], by simp [hnone]⟩
    · obtain ⟨p, hp, hparent⟩ := htree.parent_lt hq hpos
      refine ⟨?_, ?_⟩
      · simp only [hparent, reduceCtorEq, false_iff]
        omega
      · intro p' hp'
        rw [hparent] at hp'
        obtain rfl := Option.some.inj hp'
        exact hp
  · intro n hn
    refine ⟨ancestors_getLast htree hn, fun fuel hfuel => ?_⟩
    rw [(parentChain_spec htree n hn hfuel).1, ancestors, (parentChain_spec htree n hn hn).1]
  · intro width
    rw [layoutWalk_visited]
    refine ⟨?_, visits_nodup htree _ _, fun hvisible => ?_⟩
    · intro fuel hfuel cur hnodes
      exact walk_fuel 0 width (hnodes ▸ htree) (by rw [hnodes]; omega) (by rw [hnodes]; omega)
    rw [List.perm_ext_iff_of_nodup (visits_nodup htree _ _) List.nodup_range]
    intro x
    rw [List.mem_range]
    constructor
    · intro hx
      exact lt_of_mem_visits hx
    · intro hx
      exact mem_visits htree hvisible (by omega) (htree.below_root hx) hx

end Orion.Aster
