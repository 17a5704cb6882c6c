import Orion.Aster.Pool
import Orion.Aster.Tokens

/-!
# Where the nodes come from

Every node behind the root was added by one token of the page, in order, and only its links change
afterwards (`asterParseHtml_sources`).  Its parent was the topmost open element, so its ancestors are the
open elements of that time, at most 48 of them (`asterParseHtml_depth`).
-/

namespace Orion.Aster

/-! ## The node of a token -/

/-- A node without its links to other nodes below and behind it. -/
def Node.unlinked (n : Node) : Node := { n with firstChild := none, nextSibling := none }

/-- A new element below node `p`, with its attributes. -/
def newElement (d : Document) (p : ℕ) (t : Tag) (a : List UInt8) : Node :=
  (attrs d (Node.new (some p) .element t .none) a).1

/-- The node that a token adds below node `p`. -/
def tokenNode (d : Document) (p : ℕ) : Token → Option Node
  | .text raw =>
    if decode 768 raw = [] then none
    else some (Node.new (some p) .text .unknown (storeSlice d (decode 768 raw)).1)
  | .skip => none
  | .close _ => none
  | .element t a _ => some (newElement d p t a)
  | .style a _ => some (newElement d p .style a)
  | .script a => some (newElement d p .script a)

/-- The tokens that add a node. -/
def adds : Token → Bool
  | .text raw => decode 768 raw ≠ []
  | .skip => false
  | .close _ => false
  | .element _ _ _ => true
  | .style _ _ => true
  | .script _ => true

theorem tokenNode_isSome (d : Document) (p : ℕ) (t : Token) : (tokenNode d p t).isSome = adds t := by
  cases t with
  | text raw =>
    simp only [tokenNode, adds]
    split <;> simp [*]
  | _ => rfl

/-- The attributes of the element that a token adds. -/
def Token.attrs : Token → Option (List UInt8)
  | .element _ a _ => some a
  | .style a _ => some a
  | .script a => some a
  | _ => none

/-! ## One token -/

theorem unlinked_linkChild (nodes : List Node) (p i : ℕ) :
    (linkChild nodes p i).map Node.unlinked = nodes.map Node.unlinked :=
  linkChild_map (fun _ _ => rfl) (fun _ _ => rfl) nodes p i

theorem applyText_nodes {d : Document} (hroom : d.nodes.length < asterMaxNodes) (top : ℕ)
    (raw : List UInt8) : (applyText d top raw).nodes.map Node.unlinked =
      d.nodes.map Node.unlinked ++ (tokenNode d top (.text raw)).toList := by
  unfold applyText tokenNode
  simp only
  generalize decode 768 raw = t
  split
  · simp
  · have hnodes := storeSlice_nodes d t
    rcases add_cases (storeSlice d t).2 top .text .unknown (storeSlice d t).1 with
      ⟨hno, -⟩ | ⟨-, hadd⟩
    · rw [hnodes] at hno
      omega
    have hmap : (linkChild ((storeSlice d t).2.nodes ++
        [Node.new (some top) .text .unknown (storeSlice d t).1]) top
        (storeSlice d t).2.nodes.length).map Node.unlinked =
          d.nodes.map Node.unlinked ++ [Node.new (some top) .text .unknown (storeSlice d t).1] := by
      rw [unlinked_linkChild, hnodes, List.map_append]
      rfl
    rw [hadd]
    simp only
    split <;> exact hmap

/-- The inline style of an element; nothing is set without the attribute. -/
def inlineStyle (a : List UInt8) : Style := ((attr a (ascii "style")).map styletext).getD ⟨0, 0, false, 0⟩

theorem attrHints_eq (a : List UInt8) {n : Node} (hw : n.widthHint = 0) (hh : n.heightHint = 0)
    (hf : n.styleFlags = 0) (hs : n.styleScale = 0) (hc : n.styleColor = 0) :
    attrHints a n =
      { n with
        widthHint := ((attr a (ascii "width")).map dim).getD 0
        heightHint := ((attr a (ascii "height")).map dim).getD 0
        styleFlags := (inlineStyle a).flags
        styleScale := (inlineStyle a).scale
        styleColor := if (inlineStyle a).colorSet then (inlineStyle a).color else 0 } := by
  cases n
  simp only at hw hh hf hs hc
  subst hw hh hf hs hc
  unfold attrHints inlineStyle
  cases attr a (ascii "width") <;> cases attr a (ascii "height") <;> cases attr a (ascii "style") <;> rfl

/-- **The attributes of a new element**, all at once. -/
theorem attrs_new (d : Document) (p : ℕ) (t : Tag) (first next : Option ℕ) (a : List UInt8) :
    (attrs d { Node.new (some p) .element t .none with firstChild := first, nextSibling := next } a).1 =
      { type := .element
        tag := t
        parent := some p
        firstChild := first
        nextSibling := next
        href := (storeAll d (attrTexts a)).1.getD 0 .none
        src := (storeAll d (attrTexts a)).1.getD 1 .none
        id := (storeAll d (attrTexts a)).1.getD 2 .none
        cls := (storeAll d (attrTexts a)).1.getD 3 .none
        text := (storeAll d (attrTexts a)).1.getD 4 .none
        widthHint := ((attr a (ascii "width")).map dim).getD 0
        heightHint := ((attr a (ascii "height")).map dim).getD 0
        styleFlags := (inlineStyle a).flags
        styleScale := (inlineStyle a).scale
        styleColor := if (inlineStyle a).colorSet then (inlineStyle a).color else 0 } := by
  unfold Aster.attrs
  simp only
  rw [attrSlice_eq a (ascii "href") _ (_, d) rfl, attrSlice_eq a (ascii "src") _ _ rfl,
    attrSlice_eq a (ascii "id") _ _ rfl, attrSlice_eq a (ascii "class") _ _ rfl, attrAlt_eq a _ rfl,
    attrHints_eq a rfl rfl rfl rfl rfl]
  rfl

/-- A new element depends on the text of the document only. -/
theorem attrs_unlinked {d d' : Document} (h : d'.text = d.text) {p : ℕ} {t : Tag} {n : Node}
    (hn : n.unlinked = Node.new (some p) .element t .none) (a : List UInt8) :
    (attrs d' n a).1.unlinked = newElement d p t a := by
  have hlinked : n = { Node.new (some p) .element t .none with
      firstChild := n.firstChild, nextSibling := n.nextSibling } := by
    rw [← hn]
    rfl
  have hnew := attrs_new d p t none none a
  rw [hlinked, attrs_new, storeAll_congr _ h]
  exact hnew.symm

theorem applyElement_nodes {d : Document} (hroom : d.nodes.length < asterMaxNodes) (top : ℕ) (t : Tag)
    (a : List UInt8) : (applyElement d top t a).1 = some d.nodes.length ∧
      (applyElement d top t a).2.nodes.map Node.unlinked =
        d.nodes.map Node.unlinked ++ [newElement d top t a] := by
  unfold applyElement
  rcases add_cases d top .element t .none with ⟨hno, -⟩ | ⟨-, hadd⟩
  · omega
  have hmap : (linkChild (d.nodes ++ [Node.new (some top) .element t .none]) top
      d.nodes.length).map Node.unlinked =
        d.nodes.map Node.unlinked ++ [Node.new (some top) .element t .none] := by
    rw [unlinked_linkChild, List.map_append]
    rfl
  rw [hadd]
  simp only
  generalize linkChild (d.nodes ++ [Node.new (some top) .element t .none]) top d.nodes.length = nodes
    at hmap ⊢
  have hlen : nodes.length = d.nodes.length + 1 := by
    simpa using congrArg List.length hmap
  obtain ⟨n, hn⟩ : ∃ n, nodes[d.nodes.length]? = some n := ⟨_, List.getElem?_eq_getElem (by omega)⟩
  have hnew : n.unlinked = Node.new (some top) .element t .none := by
    have h := congrArg (fun l => l[d.nodes.length]?) hmap
    simp only [List.getElem?_map, hn] at h
    simpa using h
  have htext : ({ d with nodes := nodes } : Document).text = d.text := rfl
  have hattrs := attrs_unlinked htext hnew a
  have hnodes := (attrs_links { d with nodes := nodes } n a).2
  rw [hn]
  simp only
  generalize Aster.attrs { d with nodes := nodes } n a = r at hattrs hnodes ⊢
  refine ⟨trivial, ?_⟩
  show (r.2.nodes.set d.nodes.length r.1).map Node.unlinked = _
  rw [hnodes, List.map_set, hattrs, hmap, List.set_append_right _ _ (by simp)]
  simp

/-! ## A run -/

theorem applyToken_nodes {s : ParseState} (hroom : s.doc.nodes.length < asterMaxNodes) (t : Token) :
    (applyToken s t).doc.nodes.map Node.unlinked =
      s.doc.nodes.map Node.unlinked ++ (tokenNode s.doc (s.stack.headD 0) t).toList := by
  have helement := applyElement_nodes hroom (s.stack.headD 0)
  cases t with
  | text raw => exact applyText_nodes hroom _ raw
  | skip => simp [applyToken, tokenNode]
  | close t => simp [applyToken, tokenNode]
  | element t a self =>
    obtain ⟨hidx, hnodes⟩ := helement t a
    simp only [applyToken]
    generalize applyElement s.doc (s.stack.headD 0) t a = r at hidx hnodes
    obtain ⟨idx, d⟩ := r
    simp only at hidx hnodes
    subst hidx
    simp only
    split <;> exact hnodes
  | style a sheet =>
    obtain ⟨hidx, hnodes⟩ := helement .style a
    simp only [applyToken]
    generalize applyElement s.doc (s.stack.headD 0) .style a = r at hidx hnodes
    obtain ⟨idx, d⟩ := r
    simp only at hidx hnodes
    subst hidx
    simp only [css_nodes]
    exact hnodes
  | script a => exact (helement .script a).2

/-- A node that was added by a token, up to its links. -/
def AddedBy (n : Node) (t : Token) : Prop := ∃ d p, tokenNode d p t = some n

/-- **A run adds a node for each token that adds one**, in order, as long as there is room. -/
theorem applyAll_nodes (ts : List Token) : ∀ s : ParseState, s.doc.nodes.length ≤ asterMaxNodes →
    ∃ new, (applyAll s ts).doc.nodes.map Node.unlinked = s.doc.nodes.map Node.unlinked ++ new ∧
      List.Forall₂ AddedBy new ((ts.filter adds).take (asterMaxNodes - s.doc.nodes.length)) := by
  induction ts with
  | nil => exact fun s _ => ⟨[], by simp [applyAll], by simp⟩
  | cons t ts ih =>
    intro s hle
    by_cases hfull : s.doc.nodes.length ≥ asterMaxNodes
    · rw [applyAll_full hfull]
      exact ⟨[], by simp, by simp [show asterMaxNodes - s.doc.nodes.length = 0 by omega]⟩
    · have hstep := applyToken_nodes (by omega) t (s := s)
      have hlen := congrArg List.length hstep
      simp only [List.length_map, List.length_append] at hlen
      have hsome := tokenNode_isSome s.doc (s.stack.headD 0) t
      rw [applyAll, if_neg hfull]
      cases hn : tokenNode s.doc (s.stack.headD 0) t with
      | none =>
        rw [hn] at hstep hlen hsome
        simp only [Option.toList_none, List.append_nil, List.length_nil, Nat.add_zero] at hstep hlen
        obtain ⟨new, hnew, hby⟩ := ih (applyToken s t) (by omega)
        rw [hlen] at hby
        rw [hstep] at hnew
        refine ⟨new, hnew, ?_⟩
        rw [List.filter_cons_of_neg (by rw [← hsome]; simp)]
        exact hby
      | some n =>
        rw [hn] at hstep hlen hsome
        simp only [Option.toList_some, List.length_singleton] at hstep hlen
        obtain ⟨new, hnew, hby⟩ := ih (applyToken s t) (by omega)
        refine ⟨n :: new, by rw [hnew, hstep, List.append_assoc]; rfl, ?_⟩
        rw [List.filter_cons_of_pos (by rw [← hsome]; rfl),
          show asterMaxNodes - s.doc.nodes.length = asterMaxNodes - (applyToken s t).doc.nodes.length + 1
            by omega, List.take_succ_cons]
        exact .cons ⟨_, _, hn⟩ hby

/-- The tokens of a page that get a node. -/
def sources (h : List UInt8) : List Token := ((tokens (cstr h)).filter adds).take (asterMaxNodes - 1)

theorem asterParseHtml_nodes (d : Document) (h : List UInt8) : (asterParseHtml d h).2.nodes =
    (applyAll ⟨asterDocumentInit d, [0]⟩ (tokens (cstr h))).doc.nodes := by
  rw [tokens, ← parseLoop_eq_applyAll]
  unfold asterParseHtml
  simp only
  split <;> rfl

/-- **The nodes of a page** are the root and one for each of these tokens, in order. -/
theorem asterParseHtml_sources (d : Document) (h : List UInt8) :
    ∃ new, (asterParseHtml d h).2.nodes.map Node.unlinked =
        Node.new none .root .unknown .none :: new ∧ List.Forall₂ AddedBy new (sources h) := by
  obtain ⟨new, hnew, hby⟩ := applyAll_nodes (tokens (cstr h)) ⟨asterDocumentInit d, [0]⟩
    (show 1 ≤ asterMaxNodes by decide)
  refine ⟨new, ?_, hby⟩
  rw [asterParseHtml_nodes, hnew]
  rfl

theorem asterParseHtml_root (d : Document) (h : List UInt8) :
    ((asterParseHtml d h).2.nodes[0]?).map Node.unlinked = some (Node.new none .root .unknown .none) := by
  obtain ⟨new, hnew, -⟩ := asterParseHtml_sources d h
  rw [← List.getElem?_map, hnew]
  rfl

/-- Where a node behind the root comes from. -/
theorem asterParseHtml_node {d : Document} {h : List UInt8} {i : ℕ} {q : Node}
    (hq : (asterParseHtml d h).2.nodes[i + 1]? = some q) :
    ∃ t, (sources h)[i]? = some t ∧ AddedBy q.unlinked t := by
  obtain ⟨new, hnew, hby⟩ := asterParseHtml_sources d h
  have hget : new[i]? = some q.unlinked := by
    rw [← List.getElem?_cons_succ, ← hnew, List.getElem?_map, hq]
    rfl
  obtain ⟨hlt, hval⟩ := List.getElem?_eq_some_iff.mp hget
  obtain ⟨hlen, hall⟩ := List.forall₂_iff_get.mp hby
  have hadd := hall i hlt (hlen ▸ hlt)
  refine ⟨(sources h)[i], List.getElem?_eq_getElem (hlen ▸ hlt), ?_⟩
  rw [← hval]
  exact hadd

/-! ## Depth -/

/-- Node `n` and its ancestors, by the parent fields. -/
inductive Upwards (parents : List (Option ℕ)) : ℕ → List ℕ → Prop
  | root {n : ℕ} : parents[n]? = some none → Upwards parents n [n]
  | up {n p : ℕ} {l : List ℕ} : parents[n]? = some (some p) → Upwards parents p l →
      Upwards parents n (n :: l)

theorem Upwards.mono {parents parents' : List (Option ℕ)} (hsub : parents <+: parents') {n : ℕ}
    {l : List ℕ} (h : Upwards parents n l) : Upwards parents' n l := by
  obtain ⟨more, rfl⟩ := hsub
  have hkeep : ∀ {i : ℕ} {x : Option ℕ}, parents[i]? = some x → (parents ++ more)[i]? = some x := by
    intro i x hx
    rw [List.getElem?_append_left (List.getElem?_eq_some_iff.mp hx).1]
    exact hx
  induction h with
  | root hn => exact .root (hkeep hn)
  | up hn _ ih => exact .up (hkeep hn) ih

/-- What is left of a chain above its first node is the chain of its parent. -/
theorem Upwards.tail {parents : List (Option ℕ)} {i j : ℕ} {l : List ℕ}
    (h : Upwards parents i (i :: j :: l)) : Upwards parents j (j :: l) := by
  cases h with
  | up hn hp =>
    cases hp with
    | root hp => exact .root hp
    | up hp hr => exact .up hp hr

theorem Upwards.head {parents : List (Option ℕ)} {n : ℕ} {l : List ℕ} (h : Upwards parents n l) :
    ∃ rest, l = n :: rest := by
  cases h <;> exact ⟨_, rfl⟩

/-- In a tree the chain is what the walk to the root finds. -/
theorem Upwards.ancestors_eq {d : Document} (htree : Tree d.nodes) {n : ℕ} {l : List ℕ}
    (h : Upwards (d.nodes.map Node.parent) n l) : ancestors d n = l := by
  have key : ∀ {m : ℕ} {l : List ℕ}, Upwards (d.nodes.map Node.parent) m l →
      parentChain d.nodes (m + 1) (some m) = l := by
    intro m l hm
    induction hm with
    | @root m hroot =>
      obtain ⟨q, hq, hnone⟩ := Option.map_eq_some_iff.mp ((List.getElem?_map ..).symm.trans hroot)
      simp only [parentChain, hq, hnone]
      cases m <;> rfl
    | @up m p l hup _ ih =>
      obtain ⟨q, hq, hp⟩ := Option.map_eq_some_iff.mp ((List.getElem?_map ..).symm.trans hup)
      have hlt := (List.getElem?_eq_some_iff.mp hq).1
      have hpm := htree.kid_gt (mem_kids.mpr ⟨q, hq, hp⟩)
      simp only [parentChain, hq, hp]
      rw [(parentChain_spec htree p (by omega) hpm).1, ih]
  have hlt : n < d.nodes.length := by
    cases h with
    | root hn => simpa using (List.getElem?_eq_some_iff.mp hn).1
    | up hn _ => simpa using (List.getElem?_eq_some_iff.mp hn).1
  rw [ancestors, (parentChain_spec htree n hlt hlt).1, key h]

/-- The stack holds the chain of its topmost element and at most 48 entries, and no parent has a longer
chain. -/
structure DepthOk (parents : List (Option ℕ)) (stack : List ℕ) : Prop where
  chain : Upwards parents (stack.headD 0) stack
  short : stack.length ≤ 48
  depth : ∀ i p : ℕ, parents[i]? = some (some p) → ∃ l, Upwards parents p l ∧ l.length ≤ 48

/-- A new node below the topmost element. -/
theorem DepthOk.add {parents : List (Option ℕ)} {stack : List ℕ} (h : DepthOk parents stack) :
    DepthOk (parents ++ [some (stack.headD 0)]) stack := by
  have hsub := List.prefix_append parents [some (stack.headD 0)]
  refine ⟨h.chain.mono hsub, h.short, fun i p hi => ?_⟩
  by_cases hold : i < parents.length
  · rw [List.getElem?_append_left hold] at hi
    obtain ⟨l, hl, hlen⟩ := h.depth i p hi
    exact ⟨l, hl.mono hsub, hlen⟩
  · rw [List.getElem?_append_right (by omega)] at hi
    have hp : p = stack.headD 0 := by
      have hmem := List.mem_of_getElem? hi
      simpa using hmem
    rw [hp]
    exact ⟨stack, h.chain.mono hsub, h.short⟩

/-- The new node is opened. -/
theorem DepthOk.push {parents : List (Option ℕ)} {stack : List ℕ} (h : DepthOk parents stack)
    (hroom : stack.length < 48) :
    DepthOk (parents ++ [some (stack.headD 0)]) (parents.length :: stack) := by
  have hadd := h.add
  refine ⟨.up ?_ hadd.chain, ?_, hadd.depth⟩
  · simp
  · rw [List.length_cons]
    omega

/-- Elements are closed down to one that was open. -/
theorem DepthOk.pop {d : Document} {parents : List (Option ℕ)} {t : Tag} : ∀ {stack rest : List ℕ},
    DepthOk parents stack → findOpen d t stack = some rest → DepthOk parents rest := by
  intro stack
  induction stack with
  | nil =>
    intro rest _ h
    cases h
  | cons i stack ih =>
    intro rest hok h
    cases stack with
    | nil => cases h
    | cons j stack =>
      have hshort := hok.short
      have htail : DepthOk parents (j :: stack) :=
        ⟨hok.chain.tail, by rw [List.length_cons] at hshort; omega, hok.depth⟩
      rw [findOpen] at h
      split at h
      · rw [← Option.some.inj h]
        exact htail
      · exact ih htail h

theorem tokenNode_parent {d : Document} {p : ℕ} {t : Token} {n : Node} (h : tokenNode d p t = some n) :
    n.parent = some p := by
  cases t with
  | text raw =>
    rw [tokenNode] at h
    split at h
    · cases h
    · rw [← Option.some.inj h]
      rfl
  | skip => cases h
  | close t => cases h
  | element t a self =>
    rw [← Option.some.inj h]
    exact congrArg Node.parent (attrs_new d p _ none none a)
  | style a sheet =>
    rw [← Option.some.inj h]
    exact congrArg Node.parent (attrs_new d p _ none none a)
  | script a =>
    rw [← Option.some.inj h]
    exact congrArg Node.parent (attrs_new d p _ none none a)

def ParseState.parents (s : ParseState) : List (Option ℕ) := s.doc.nodes.map Node.parent

theorem applyToken_parents {s : ParseState} (hroom : s.doc.nodes.length < asterMaxNodes) (t : Token) :
    (applyToken s t).parents = s.parents ++ if adds t then [some (s.stack.headD 0)] else [] := by
  have hsome := tokenNode_isSome s.doc (s.stack.headD 0) t
  have hmap : ∀ nodes : List Node, nodes.map Node.parent = (nodes.map Node.unlinked).map Node.parent := by
    intro nodes
    rw [List.map_map]
    rfl
  rw [ParseState.parents, ParseState.parents, hmap, applyToken_nodes hroom, List.map_append, ← hmap]
  cases hn : tokenNode s.doc (s.stack.headD 0) t with
  | none =>
    rw [hn] at hsome
    rw [← hsome]
    rfl
  | some n =>
    rw [hn] at hsome
    rw [← hsome]
    show _ ++ [n.parent] = _ ++ [_]
    rw [tokenNode_parent hn]

theorem applyToken_depth {s : ParseState} (hroom : s.doc.nodes.length < asterMaxNodes)
    (h : DepthOk s.parents s.stack) (t : Token) :
    DepthOk (applyToken s t).parents (applyToken s t).stack := by
  rw [applyToken_parents hroom]
  cases t with
  | text raw =>
    show DepthOk (_ ++ if adds (.text raw) then _ else []) s.stack
    split
    · exact h.add
    · rw [List.append_nil]
      exact h
  | skip =>
    show DepthOk (s.parents ++ []) s.stack
    rw [List.append_nil]
    exact h
  | close t =>
    show DepthOk (s.parents ++ []) ((findOpen s.doc t s.stack).getD s.stack)
    rw [List.append_nil]
    cases hopen : findOpen s.doc t s.stack with
    | none => exact h
    | some rest => exact h.pop hopen
  | element t a self =>
    obtain ⟨hidx, -⟩ := applyElement_nodes hroom (s.stack.headD 0) t a
    have hlen : s.parents.length = s.doc.nodes.length := List.length_map ..
    show DepthOk (s.parents ++ [_]) (applyToken s (.element t a self)).stack
    simp only [applyToken]
    generalize applyElement s.doc (s.stack.headD 0) t a = r at hidx
    obtain ⟨idx, d⟩ := r
    simp only at hidx
    subst hidx
    simp only
    split
    · next hpush =>
      rw [← hlen]
      exact h.push (by simp at hpush; omega)
    · exact h.add
  | style a sheet =>
    obtain ⟨hidx, -⟩ := applyElement_nodes hroom (s.stack.headD 0) .style a
    show DepthOk (s.parents ++ [_]) (applyToken s (.style a sheet)).stack
    simp only [applyToken]
    generalize applyElement s.doc (s.stack.headD 0) .style a = r at hidx
    obtain ⟨idx, d⟩ := r
    simp only at hidx
    subst hidx
    exact h.add
  | script a => exact h.add

theorem applyAll_depth (ts : List Token) : ∀ s : ParseState, DepthOk s.parents s.stack →
    DepthOk (applyAll s ts).parents (applyAll s ts).stack := by
  induction ts with
  | nil => exact fun _ h => h
  | cons t ts ih =>
    intro s h
    rw [applyAll]
    split
    · exact h
    · exact ih _ (applyToken_depth (by omega) h t)

theorem init_depth (d : Document) :
    DepthOk (⟨asterDocumentInit d, [0]⟩ : ParseState).parents [0] := by
  refine ⟨.root rfl, by decide, fun i p hi => ?_⟩
  have hmem := List.mem_of_getElem? hi
  cases List.mem_singleton.mp hmem

/-- **Every parent of a page has at most 48 ancestors**, itself included. -/
theorem asterParseHtml_depth (d : Document) (h : List UInt8) {i p : ℕ} {q : Node}
    (hq : (asterParseHtml d h).2.nodes[i]? = some q) (hp : q.parent = some p) :
    ancestors (asterParseHtml d h).2 i = i :: ancestors (asterParseHtml d h).2 p ∧
      (ancestors (asterParseHtml d h).2 p).length ≤ 48 := by
  have hok := applyAll_depth (tokens (cstr h)) _ (init_depth d)
  have hparents : (asterParseHtml d h).2.nodes.map Node.parent =
      (applyAll ⟨asterDocumentInit d, [0]⟩ (tokens (cstr h))).parents := by
    rw [ParseState.parents, asterParseHtml_nodes]
  rw [← hparents] at hok
  have htree := asterParseHtml_tree d h
  generalize (asterParseHtml d h).2 = D at *
  have hi : (D.nodes.map Node.parent)[i]? = some (some p) := by
    rw [List.getElem?_map, hq, ← hp]
    rfl
  obtain ⟨l, hl, hlen⟩ := hok.depth i p hi
  rw [hl.ancestors_eq htree, (Upwards.up hi hl).ancestors_eq htree]
  exact ⟨rfl, hlen⟩

end Orion.Aster
