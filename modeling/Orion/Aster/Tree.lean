import Orion.Aster.Layout

/-!
# The tree of a document

`Tree` is what the parser keeps true of the node array: the root is the only node without a parent,
parents come before their children, and the sibling links of every node run through its children in
order.  Adding a node keeps it (`add_tree`), so every document of the parser has it
(`parseLoop_ok`).
-/

namespace Orion.Aster

/-! ## Links -/

/-- The children of a node, by their parent field. -/
def kids (nodes : List Node) (p : ℕ) : List ℕ :=
  (List.range nodes.length).filter fun i => (nodes[i]?).bind Node.parent = some p

/-- The sibling links from `start` run through `ks` and end. -/
inductive SibChain (nodes : List Node) : Option ℕ → List ℕ → Prop
  | nil : SibChain nodes none []
  | cons {c : ℕ} {q : Node} {ks : List ℕ} : nodes[c]? = some q → SibChain nodes q.nextSibling ks →
      SibChain nodes (some c) (c :: ks)

structure Tree (nodes : List Node) : Prop where
  count : nodes.length ≤ asterMaxNodes
  root : ∃ q, nodes[0]? = some q ∧ q.parent = none
  parent_lt : ∀ {i q}, nodes[i]? = some q → 0 < i → ∃ p < i, q.parent = some p
  chain : ∀ {p q}, nodes[p]? = some q → SibChain nodes q.firstChild (kids nodes p)

theorem mem_kids {nodes : List Node} {p i : ℕ} :
    i ∈ kids nodes p ↔ ∃ q, nodes[i]? = some q ∧ q.parent = some p := by
  simp only [kids, List.mem_filter, List.mem_range, decide_eq_true_eq, Option.bind_eq_some_iff]
  constructor
  · exact fun h => h.2
  · rintro ⟨q, hq, hp⟩
    exact ⟨(List.getElem?_eq_some_iff.mp hq).1, q, hq, hp⟩

/-- Children come after their parent. -/
theorem Tree.kid_gt {nodes : List Node} (h : Tree nodes) {p i : ℕ} (hi : i ∈ kids nodes p) : p < i := by
  obtain ⟨q, hq, hqp⟩ := mem_kids.mp hi
  rcases Nat.eq_zero_or_pos i with rfl | hpos
  · obtain ⟨q0, hq0, hnone⟩ := h.root
    obtain rfl := Option.some.inj (hq.symm.trans hq0)
    simp [hnone] at hqp
  · obtain ⟨p', hp', hpar⟩ := h.parent_lt hq hpos
    obtain rfl := Option.some.inj (hqp.symm.trans hpar)
    exact hp'

theorem kids_length_le (nodes : List Node) (p : ℕ) : (kids nodes p).length ≤ nodes.length := by
  have h := List.length_filter_le (fun i => (nodes[i]?).bind Node.parent = some p)
    (List.range nodes.length)
  rwa [List.length_range] at h

namespace SibChain

variable {nodes nodes' : List Node}

/-- Following the links lists the chain. -/
theorem siblings_eq {start : Option ℕ} {ks : List ℕ} (h : SibChain nodes start ks) :
    ∀ {fuel : ℕ}, ks.length ≤ fuel → siblings nodes fuel start = ks := by
  induction h with
  | nil =>
    intro fuel _
    cases fuel <;> rfl
  | cons hq _ ih =>
    intro fuel hfuel
    obtain ⟨fuel, rfl⟩ : ∃ k, fuel = k + 1 := ⟨fuel - 1, by simp at hfuel; omega⟩
    rw [siblings, hq]
    simp only
    rw [ih (by simpa using hfuel)]

/-- The last sibling is the last of the chain. -/
theorem lastSibling_eq {c : ℕ} {ks : List ℕ} (h : SibChain nodes (some c) (c :: ks)) :
    ∀ {fuel : ℕ}, ks.length ≤ fuel → lastSibling nodes fuel c = (c :: ks).getLast (by simp) := by
  induction ks generalizing c with
  | nil =>
    intro fuel _
    obtain ⟨q, hq, hnext⟩ : ∃ q, nodes[c]? = some q ∧ SibChain nodes q.nextSibling [] := by
      cases h with
      | cons hq hnext => exact ⟨_, hq, hnext⟩
    have hnone : q.nextSibling = none := by
      generalize q.nextSibling = o at hnext
      cases hnext
      rfl
    cases fuel with
    | zero => rfl
    | succ fuel => simp [lastSibling, hq, hnone]
  | cons c' ks ih =>
    intro fuel hfuel
    obtain ⟨q, hq, hnext⟩ : ∃ q, nodes[c]? = some q ∧ SibChain nodes q.nextSibling (c' :: ks) := by
      cases h with
      | cons hq hnext => exact ⟨_, hq, hnext⟩
    have hsome : q.nextSibling = some c' := by
      generalize q.nextSibling = o at hnext
      cases hnext
      rfl
    rw [hsome] at hnext
    obtain ⟨fuel, rfl⟩ : ∃ k, fuel = k + 1 := ⟨fuel - 1, by simp at hfuel; omega⟩
    rw [lastSibling, hq]
    simp only [hsome]
    rw [ih hnext (by simpa using hfuel)]
    exact (List.getLast_cons (by simp)).symm

/-- A chain depends on the links of its members only. -/
theorem congr {start : Option ℕ} {ks : List ℕ} (h : SibChain nodes start ks)
    (hsame : ∀ c ∈ ks, (nodes'[c]?).map Node.nextSibling = (nodes[c]?).map Node.nextSibling) :
    SibChain nodes' start ks := by
  induction h with
  | nil => exact .nil
  | @cons c q ks hq _ ih =>
    have hc := hsame c (by simp)
    rw [hq] at hc
    obtain ⟨q', hq', hnext⟩ := Option.map_eq_some_iff.mp hc
    refine .cons hq' ?_
    rw [hnext]
    exact ih fun c hc => hsame c (by simp [hc])

/-- Link a new node behind the last of the chain. -/
theorem concat {start : Option ℕ} {ks : List ℕ} (h : SibChain nodes start ks) (hne : ks ≠ [])
    {i : ℕ} (hnew : ∃ q, nodes'[i]? = some q ∧ q.nextSibling = none)
    (hlast : (nodes'[ks.getLast hne]?).map Node.nextSibling = some (some i))
    (hsame : ∀ c ∈ ks, c ≠ ks.getLast hne →
      (nodes'[c]?).map Node.nextSibling = (nodes[c]?).map Node.nextSibling)
    (hnodup : ks.Nodup) : SibChain nodes' start (ks ++ [i]) := by
  induction h with
  | nil => exact absurd rfl hne
  | @cons c q ks hq hrest ih =>
    cases ks with
    | nil =>
      obtain ⟨q', hq', hnext⟩ := Option.map_eq_some_iff.mp hlast
      obtain ⟨r, hr, hnone⟩ := hnew
      refine .cons hq' ?_
      rw [hnext]
      refine .cons hr ?_
      rw [hnone]
      exact .nil
    | cons c' ks =>
      have hgl : (c :: c' :: ks).getLast hne = (c' :: ks).getLast (by simp) :=
        List.getLast_cons (by simp)
      rw [hgl] at hlast hsame
      obtain ⟨hnotin, hnodup⟩ := List.nodup_cons.mp hnodup
      have hc := hsame c (by simp) fun heq => hnotin (heq ▸ List.getLast_mem _)
      rw [hq] at hc
      obtain ⟨q', hq', hnext⟩ := Option.map_eq_some_iff.mp hc
      refine .cons hq' ?_
      rw [hnext]
      exact ih (by simp) hlast (fun x hx => hsame x (by simp [hx])) hnodup

end SibChain

/-! ## Adding a node -/

/-- The links of a node. -/
def Node.links (n : Node) : Option ℕ × Option ℕ × Option ℕ := (n.parent, n.firstChild, n.nextSibling)

theorem kids_congr {nodes nodes' : List Node} (hlen : nodes'.length = nodes.length)
    (h : ∀ i : ℕ, (nodes'[i]?).bind Node.parent = (nodes[i]?).bind Node.parent) (p : ℕ) :
    kids nodes' p = kids nodes p := by
  simp only [kids, hlen, h]

theorem map_links_getElem? {nodes nodes' : List Node}
    (h : nodes'.map Node.links = nodes.map Node.links) (i : ℕ) :
    (nodes'[i]?).map Node.links = (nodes[i]?).map Node.links := by
  rw [← List.getElem?_map, ← List.getElem?_map, h]

/-- The tree depends on the links only. -/
theorem Tree.congr {nodes nodes' : List Node} (h : Tree nodes)
    (hlinks : nodes'.map Node.links = nodes.map Node.links) : Tree nodes' := by
  have hlen : nodes'.length = nodes.length := by simpa using congrArg List.length hlinks
  have hget := map_links_getElem? hlinks
  -- a node of one array is one of the other, with the same links
  have hback : ∀ {i : ℕ} {q' : Node}, nodes'[i]? = some q' →
      ∃ q : Node, nodes[i]? = some q ∧ q'.links = q.links := by
    intro i q' hq'
    have hi := hget i
    rw [hq'] at hi
    obtain ⟨q, hq, heq⟩ := Option.map_eq_some_iff.mp hi.symm
    exact ⟨q, hq, heq.symm⟩
  have hparent : ∀ i : ℕ, (nodes'[i]?).bind Node.parent = (nodes[i]?).bind Node.parent := by
    intro i
    have hi := congrArg (Option.bind · Prod.fst) (hget i)
    simpa [Option.bind_map, Function.comp_def, Node.links] using hi
  have hnext : ∀ i : ℕ, (nodes'[i]?).map Node.nextSibling = (nodes[i]?).map Node.nextSibling := by
    intro i
    have hi := congrArg (Option.map fun l => l.2.2) (hget i)
    simpa [Option.map_map, Function.comp_def, Node.links] using hi
  refine ⟨hlen ▸ h.count, ?_, ?_, ?_⟩
  · obtain ⟨q, hq, hnone⟩ := h.root
    have h0 := hget 0
    rw [hq] at h0
    obtain ⟨q', hq', heq⟩ := Option.map_eq_some_iff.mp h0
    exact ⟨q', hq', (congrArg Prod.fst heq).trans hnone⟩
  · intro i q' hq' hi
    obtain ⟨q, hq, heq⟩ := hback hq'
    obtain ⟨p, hp, hparent⟩ := h.parent_lt hq hi
    exact ⟨p, hp, (congrArg Prod.fst heq).trans hparent⟩
  · intro p q' hq'
    obtain ⟨q, hq, heq⟩ := hback hq'
    have hfirst : q'.firstChild = q.firstChild := congrArg (fun l => l.2.1) heq
    rw [hfirst, kids_congr hlen hparent]
    exact (h.chain hq).congr fun c _ => hnext c

section

variable {nodes : List Node} {p : ℕ}

theorem Tree.length_pos (h : Tree nodes) : 0 < nodes.length := by
  obtain ⟨q, hq, -⟩ := h.root
  exact (List.getElem?_eq_some_iff.mp hq).1

theorem mem_kids_lt {i : ℕ} (h : i ∈ kids nodes p) : i < nodes.length := by
  obtain ⟨q, hq, -⟩ := mem_kids.mp h
  exact (List.getElem?_eq_some_iff.mp hq).1

theorem kids_nodup (nodes : List Node) (p : ℕ) : (kids nodes p).Nodup :=
  List.nodup_range.filter _

/-- The children, when a node is appended. -/
theorem kids_append (new : Node) (r : ℕ) :
    kids (nodes ++ [new]) r = kids nodes r ++ (if new.parent = some r then [nodes.length] else []) := by
  have hold : (List.range nodes.length).filter
      (fun i => ((nodes ++ [new])[i]?).bind Node.parent = some r) = kids nodes r := by
    apply List.filter_congr
    intro i hi
    rw [List.getElem?_append_left (List.mem_range.mp hi)]
  have hnew : ((nodes ++ [new])[nodes.length]?).bind Node.parent = new.parent := by
    simp
  rw [kids, List.length_append, List.length_singleton, List.range_succ, List.filter_append, hold,
    List.filter_singleton, hnew]
  simp

/-- Links that are set do not change parents. -/
theorem kids_modify {f : Node → Node} (hf : ∀ n, (f n).parent = n.parent) (i r : ℕ) :
    kids (nodes.modify i f) r = kids nodes r := by
  apply kids_congr (List.length_modify ..)
  intro j
  rw [List.getElem?_modify]
  cases nodes[j]? with
  | none => rfl
  | some q =>
    by_cases hij : i = j
    · simp [hij, hf]
    · simp [hij]

end

theorem modify_some {nodes : List Node} {m j : ℕ} {f : Node → Node} {x : Node}
    (h : (nodes.modify m f)[j]? = some x) :
    ∃ y, nodes[j]? = some y ∧ x = if m = j then f y else y := by
  rw [List.getElem?_modify] at h
  cases hj : nodes[j]? with
  | none => simp [hj] at h
  | some y =>
    refine ⟨y, rfl, ?_⟩
    simpa [hj] using h.symm

theorem modify_ne {nodes : List Node} {m j : ℕ} (f : Node → Node) (h : m ≠ j) :
    (nodes.modify m f)[j]? = nodes[j]? := by
  rw [List.getElem?_modify]
  cases nodes[j]? <;> simp [h]

section

variable {nodes : List Node} (h : Tree nodes) (hroom : nodes.length < asterMaxNodes) {p : ℕ}
  (hp : p < nodes.length) {new : Node} (hnew : new.links = (some p, none, none))

include h hroom hp hnew

/-- The parts of the invariant that do not look at sibling links, for a new node and one changed
link. -/
theorem Tree.of_modify {m : ℕ} {f : Node → Node} (hf : ∀ n, (f n).parent = n.parent)
    (hchain : ∀ {r x}, r < nodes.length → nodes[r]? = some x →
      SibChain ((nodes ++ [new]).modify m f) (if m = r then f x else x).firstChild
        (kids nodes r ++ if p = r then [nodes.length] else []))
    (hm : m < nodes.length) : Tree ((nodes ++ [new]).modify m f) := by
  have hparent : new.parent = some p := congrArg Prod.fst hnew
  have hold : ∀ {r : ℕ}, r < nodes.length → (nodes ++ [new])[r]? = nodes[r]? :=
    fun hr => List.getElem?_append_left hr
  have hlast : (nodes ++ [new])[nodes.length]? = some new := by simp
  have hkids : ∀ r, kids ((nodes ++ [new]).modify m f) r
      = kids nodes r ++ if p = r then [nodes.length] else [] := by
    intro r
    rw [kids_modify hf, kids_append, hparent]
    simp only [Option.some.injEq]
  have hbound : ∀ {r : ℕ} {x : Node}, (nodes ++ [new])[r]? = some x → r ≤ nodes.length := by
    intro r x hx
    have hr := (List.getElem?_eq_some_iff.mp hx).1
    simp at hr
    omega
  refine ⟨?_, ?_, ?_, ?_⟩
  · simp only [List.length_modify, List.length_append, List.length_singleton]
    omega
  · obtain ⟨q, hq, hnone⟩ := h.root
    rw [← hold h.length_pos] at hq
    by_cases hm0 : m = 0
    · refine ⟨f q, ?_, (hf q).trans hnone⟩
      rw [List.getElem?_modify, hq]
      simp [hm0]
    · exact ⟨q, by rw [modify_ne f hm0, hq], hnone⟩
  · intro i x hx hi
    obtain ⟨y, hy, rfl⟩ := modify_some hx
    have hsame : (if m = i then f y else y).parent = y.parent := by
      split
      · exact hf y
      · rfl
    rw [hsame]
    rcases lt_or_eq_of_le (hbound hy) with hlt | rfl
    · rw [hold hlt] at hy
      exact h.parent_lt hy hi
    · rw [hlast] at hy
      obtain rfl := Option.some.inj hy
      exact ⟨p, hp, hparent⟩
  · intro r x hx
    obtain ⟨y, hy, rfl⟩ := modify_some hx
    rw [hkids]
    rcases lt_or_eq_of_le (hbound hy) with hlt | rfl
    · rw [hold hlt] at hy
      exact hchain hlt hy
    · -- the new node has no children yet
      rw [hlast] at hy
      obtain rfl := Option.some.inj hy
      have hnone : kids nodes nodes.length = [] := by
        rw [List.eq_nil_iff_forall_not_mem]
        intro i hi
        exact absurd (mem_kids_lt hi) (h.kid_gt hi).not_gt
      rw [if_neg (by omega), if_neg (by omega), hnone,
        show new.firstChild = none from congrArg (fun l => l.2.1) hnew]
      exact .nil

/-- The new node becomes the first child of a parent that had none. -/
theorem Tree.link_first (hempty : kids nodes p = []) :
    Tree ((nodes ++ [new]).modify p (setFirstChild nodes.length)) := by
  have hlast : (nodes ++ [new])[nodes.length]? = some new := by simp
  have hnext : new.nextSibling = none := congrArg (fun l => l.2.2) hnew
  refine h.of_modify hroom hp hnew (fun _ => rfl) ?_ hp
  intro r x hr hx
  have hsame : ∀ c ∈ kids nodes r, (((nodes ++ [new]).modify p (setFirstChild nodes.length))[c]?).map
      Node.nextSibling = (nodes[c]?).map Node.nextSibling := by
    intro c hc
    rw [List.getElem?_modify, List.getElem?_append_left (mem_kids_lt hc)]
    cases nodes[c]? with
    | none => rfl
    | some y =>
      by_cases hpc : p = c <;> simp [hpc, setFirstChild]
  by_cases hpr : p = r
  · subst hpr
    rw [if_pos rfl, if_pos rfl, hempty]
    refine .cons (q := new) ?_ ?_
    · rw [modify_ne _ (by omega), hlast]
    · rw [hnext]
      exact .nil
  · rw [if_neg hpr, if_neg hpr, List.append_nil]
    exact (h.chain hx).congr hsame

/-- The new node comes behind the last child. -/
theorem Tree.link_behind {l : ℕ} (hl : l ∈ kids nodes p)
    (hgl : ∀ hne, (kids nodes p).getLast hne = l) :
    Tree ((nodes ++ [new]).modify l (setNextSibling nodes.length)) := by
  have hlast : (nodes ++ [new])[nodes.length]? = some new := by simp
  have hnext : new.nextSibling = none := congrArg (fun l => l.2.2) hnew
  obtain ⟨y, hy, hyp⟩ := mem_kids.mp hl
  refine h.of_modify hroom hp hnew (fun _ => rfl) ?_ (mem_kids_lt hl)
  intro r x hr hx
  have hfirst' : (if l = r then setNextSibling nodes.length x else x).firstChild
      = x.firstChild := by
    split <;> rfl
  rw [hfirst']
  have hsame : ∀ k ∈ kids nodes r, k ≠ l →
      (((nodes ++ [new]).modify l (setNextSibling nodes.length))[k]?).map Node.nextSibling
        = (nodes[k]?).map Node.nextSibling := by
    intro k hk hkl
    rw [modify_ne _ (Ne.symm hkl), List.getElem?_append_left (mem_kids_lt hk)]
  by_cases hpr : p = r
  · subst hpr
    have hne : kids nodes p ≠ [] := List.ne_nil_of_mem hl
    have hll := mem_kids_lt hl
    rw [if_pos rfl]
    refine (h.chain hx).concat hne ⟨new, ?_, hnext⟩ ?_ ?_ (kids_nodup nodes p)
    · rw [modify_ne _ (by omega), hlast]
    · rw [hgl, List.getElem?_modify, List.getElem?_append_left hll, hy]
      simp [setNextSibling]
    · intro k hk hkl
      rw [hgl] at hkl
      exact hsame k hk hkl
  · rw [if_neg hpr, List.append_nil]
    refine (h.chain hx).congr fun k hk => hsame k hk ?_
    rintro rfl
    obtain ⟨y', hy', hyr⟩ := mem_kids.mp hk
    obtain rfl := Option.some.inj (hy.symm.trans hy')
    exact hpr (Option.some.inj (hyp.symm.trans hyr))

/-- **Adding a node keeps the tree.** -/
theorem Tree.link : Tree (linkChild (nodes ++ [new]) p nodes.length) := by
  have hold : ∀ {r : ℕ}, r < nodes.length → (nodes ++ [new])[r]? = nodes[r]? :=
    fun hr => List.getElem?_append_left hr
  obtain ⟨q, hq⟩ : ∃ q, nodes[p]? = some q := ⟨nodes[p], List.getElem?_eq_getElem hp⟩
  have hchain := h.chain hq
  unfold linkChild
  rw [hold hp, hq]
  simp only
  split
  · next hfirst =>
    rw [hfirst] at hchain
    refine h.link_first hroom hp hnew ?_
    generalize kids nodes p = ks at hchain
    cases hchain
    rfl
  · next c hfirst =>
    rw [hfirst] at hchain
    obtain ⟨ks, hks⟩ : ∃ ks, kids nodes p = c :: ks := by
      generalize kids nodes p = ks at hchain
      cases hchain
      exact ⟨_, rfl⟩
    have hchain1 : SibChain (nodes ++ [new]) (some c) (c :: ks) := by
      rw [← hks]
      exact hchain.congr fun x hx => by rw [hold (mem_kids_lt hx)]
    have hlen : ks.length ≤ (nodes ++ [new]).length := by
      have hle := kids_length_le nodes p
      rw [hks] at hle
      simp at hle ⊢
      omega
    rw [hchain1.lastSibling_eq hlen]
    refine h.link_behind hroom hp hnew ?_ fun hne => ?_
    · rw [hks]
      exact List.getLast_mem _
    · simp only [hks]

end

/-! ## The parser -/

theorem store_nodes (d : Document) (s : List UInt8) : (store d s).2.nodes = d.nodes := by
  unfold store
  split <;> rfl

theorem storeSlice_nodes (d : Document) (s : List UInt8) : (storeSlice d s).2.nodes = d.nodes :=
  store_nodes d s

theorem selector_nodes (d : Document) (s : List UInt8) : (selector d s).2.nodes = d.nodes := by
  unfold selector
  split
  · rfl
  · split
    · rfl
    · exact storeSlice_nodes d _

theorem cssadd_nodes (d : Document) (s : List UInt8) (st : Style) :
    (cssadd d s st).nodes = d.nodes := by
  have h := selector_nodes d s
  unfold cssadd
  split
  · rfl
  · split
    · next d' hd' => rwa [hd'] at h
    · next d' hd' => rwa [hd'] at h

theorem css_nodes (d : Document) (s : List UInt8) : (css d s).nodes = d.nodes := by
  unfold css
  generalize sheetRules s.length s = rs
  induction rs generalizing d with
  | nil => rfl
  | cons r rs ih => rw [List.foldl_cons, ih, cssadd_nodes]

theorem attrSlice_links (set : Node → Slice → Node) (hset : ∀ n sl, (set n sl).links = n.links)
    (s name : List UInt8) (r : Node × Document) :
    (attrSlice s name set r).1.links = r.1.links ∧
      (attrSlice s name set r).2.nodes = r.2.nodes := by
  unfold attrSlice
  split
  · exact ⟨rfl, rfl⟩
  · split
    · exact ⟨rfl, rfl⟩
    · exact ⟨hset _ _, storeSlice_nodes _ _⟩

theorem attrAlt_links (s : List UInt8) (r : Node × Document) :
    (attrAlt s r).1.links = r.1.links ∧ (attrAlt s r).2.nodes = r.2.nodes := by
  unfold attrAlt
  split
  · exact ⟨rfl, rfl⟩
  · split
    · exact ⟨rfl, rfl⟩
    · exact ⟨rfl, storeSlice_nodes _ _⟩

theorem attrHints_links (s : List UInt8) (n : Node) : (attrHints s n).links = n.links := by
  unfold attrHints
  simp only
  repeat' split
  all_goals rfl

/-- The attributes of an element change neither its links nor other nodes. -/
theorem attrs_links (d : Document) (n : Node) (s : List UInt8) :
    (attrs d n s).1.links = n.links ∧ (attrs d n s).2.nodes = d.nodes := by
  unfold attrs
  simp only [attrHints_links]
  have h1 := attrSlice_links (fun n slice => { n with href := slice }) (fun _ _ => rfl) s
    (ascii "href") (n, d)
  generalize attrSlice s (ascii "href") _ (n, d) = r1 at h1 ⊢
  have h2 := attrSlice_links (fun n slice => { n with src := slice }) (fun _ _ => rfl) s
    (ascii "src") r1
  generalize attrSlice s (ascii "src") _ r1 = r2 at h2 ⊢
  have h3 := attrSlice_links (fun n slice => { n with id := slice }) (fun _ _ => rfl) s
    (ascii "id") r2
  generalize attrSlice s (ascii "id") _ r2 = r3 at h3 ⊢
  have h4 := attrSlice_links (fun n slice => { n with cls := slice }) (fun _ _ => rfl) s
    (ascii "class") r3
  generalize attrSlice s (ascii "class") _ r3 = r4 at h4 ⊢
  have h5 := attrAlt_links s r4
  exact ⟨h5.1.trans (h4.1.trans (h3.1.trans (h2.1.trans h1.1))),
    h5.2.trans (h4.2.trans (h3.2.trans (h2.2.trans h1.2)))⟩

/-- A document whose nodes are a tree and whose stack names nodes. -/
structure StateOk (s : ParseState) : Prop where
  tree : Tree s.doc.nodes
  stack : ∀ i ∈ s.stack, i < s.doc.nodes.length

theorem StateOk.top {s : ParseState} (h : StateOk s) : s.stack.headD 0 < s.doc.nodes.length := by
  cases hs : s.stack with
  | nil => exact h.tree.length_pos
  | cons i rest => exact h.stack i (by simp [hs])

/-- Everything `add` can do below a node. -/
theorem add_cases (d : Document) (p : ℕ) (type : NodeType) (tag : Tag) (text : Slice) :
    (d.nodes.length ≥ asterMaxNodes ∧ add d (some p) type tag text = (none, d)) ∨
    (d.nodes.length < asterMaxNodes ∧ add d (some p) type tag text = (some d.nodes.length,
      { d with
        nodes := linkChild (d.nodes ++ [Node.new (some p) type tag text]) p d.nodes.length })) := by
  unfold add
  split
  · next h => exact .inl ⟨h, rfl⟩
  · next h => exact .inr ⟨by omega, rfl⟩

theorem length_linkChild (nodes : List Node) (p i : ℕ) :
    (linkChild nodes p i).length = nodes.length := by
  unfold linkChild
  split
  · rfl
  · split <;> exact List.length_modify ..

/-- Linking a node changes the links only. -/
theorem linkChild_map {α : Type*} {g : Node → α} (hfirst : ∀ i n, g (setFirstChild i n) = g n)
    (hnext : ∀ i n, g (setNextSibling i n) = g n) (nodes : List Node) (p i : ℕ) :
    (linkChild nodes p i).map g = nodes.map g := by
  have hmodify : ∀ (m : ℕ) (f : Node → Node), (∀ n, g (f n) = g n) →
      (nodes.modify m f).map g = nodes.map g := by
    intro m f hf
    apply List.ext_getElem?
    intro j
    rw [List.getElem?_map, List.getElem?_map, List.getElem?_modify]
    cases nodes[j]? with
    | none => rfl
    | some q => by_cases hmj : m = j <;> simp [hmj, hf]
  unfold linkChild
  split
  · rfl
  · split
    · exact hmodify _ _ (hfirst i)
    · exact hmodify _ _ (hnext i)

/-- **`add` keeps the tree**, and the nodes only grow. -/
theorem add_tree {d : Document} (h : Tree d.nodes) {p : ℕ} (hp : p < d.nodes.length)
    (type : NodeType) (tag : Tag) (text : Slice) :
    Tree (add d (some p) type tag text).2.nodes ∧
      d.nodes.length ≤ (add d (some p) type tag text).2.nodes.length ∧
      ∀ i ∈ (add d (some p) type tag text).1, i < (add d (some p) type tag text).2.nodes.length := by
  rcases add_cases d p type tag text with ⟨-, heq⟩ | ⟨hroom, heq⟩
  · rw [heq]
    exact ⟨h, le_rfl, by simp⟩
  · rw [heq]
    have hnew : (Node.new (some p) type tag text).links = (some p, none, none) := rfl
    refine ⟨h.link hroom hp hnew, ?_, ?_⟩
    · simp only [length_linkChild, List.length_append, List.length_singleton]
      omega
    · intro i hi
      obtain rfl := Option.some.inj hi
      simp only [length_linkChild, List.length_append, List.length_singleton]
      omega

theorem applyText_tree {d : Document} (h : Tree d.nodes) {top : ℕ} (htop : top < d.nodes.length)
    (raw : List UInt8) :
    Tree (applyText d top raw).nodes ∧ d.nodes.length ≤ (applyText d top raw).nodes.length := by
  unfold applyText
  simp only
  split
  · exact ⟨h, le_rfl⟩
  · have hn := storeSlice_nodes d (decode 768 raw)
    generalize storeSlice d (decode 768 raw) = r at hn ⊢
    obtain ⟨slice, d'⟩ := r
    simp only at hn ⊢
    have hadd := add_tree (d := d') (hn ▸ h) (p := top) (hn ▸ htop) .text .unknown slice
    rw [hn] at hadd
    split
    · next d'' heq =>
      rw [heq] at hadd
      exact ⟨hadd.1, hadd.2.1⟩
    · next d'' heq =>
      rw [heq] at hadd
      split <;> exact ⟨hadd.1, hadd.2.1⟩

theorem applyElement_tree {d : Document} (h : Tree d.nodes) {top : ℕ} (htop : top < d.nodes.length)
    (t : Tag) (a : List UInt8) :
    Tree (applyElement d top t a).2.nodes ∧
      d.nodes.length ≤ (applyElement d top t a).2.nodes.length ∧
      ∀ i ∈ (applyElement d top t a).1, i < (applyElement d top t a).2.nodes.length := by
  have hadd := add_tree h htop .element t .none
  unfold applyElement
  split
  · next d' heq =>
    rw [heq] at hadd
    exact hadd
  · next idx d' heq =>
    rw [heq] at hadd
    split
    · exact hadd
    · next n hn =>
      have hlinks := attrs_links d' n a
      generalize attrs d' n a = r at hlinks
      obtain ⟨n', d''⟩ := r
      simp only at hlinks hadd ⊢
      rw [hlinks.2]
      have hmap : (d'.nodes.set idx n').map Node.links = d'.nodes.map Node.links := by
        have hidx : (d'.nodes.map Node.links)[idx]? = some n'.links := by
          rw [List.getElem?_map, hn, hlinks.1]
          rfl
        obtain ⟨hlt, hval⟩ := List.getElem?_eq_some_iff.mp hidx
        rw [List.map_set, ← hval, List.set_getElem_self]
      simp only [List.length_set]
      exact ⟨hadd.1.congr hmap, hadd.2⟩

theorem findOpen_sublist (d : Document) (t : Tag) : ∀ {stack rest : List ℕ},
    findOpen d t stack = some rest → rest.Sublist stack := by
  intro stack
  induction stack with
  | nil =>
    intro rest h
    simp [findOpen] at h
  | cons i stack ih =>
    intro rest h
    cases stack with
    | nil => simp [findOpen] at h
    | cons j stack =>
      rw [findOpen] at h
      split at h
      · obtain rfl := Option.some.inj h
        exact List.sublist_cons_self _ _
      · exact (ih h).cons _

/-- **One turn of the parser keeps the tree.** -/
theorem applyToken_ok {s : ParseState} (h : StateOk s) (token : Token) :
    StateOk (applyToken s token) := by
  have hgrow : ∀ {d : Document}, Tree d.nodes → s.doc.nodes.length ≤ d.nodes.length →
      StateOk { s with doc := d } :=
    fun ht hle => ⟨ht, fun i hi => lt_of_lt_of_le (h.stack i hi) hle⟩
  cases token with
  | text raw =>
    have ht := applyText_tree h.tree h.top raw
    exact hgrow ht.1 ht.2
  | skip => exact h
  | close t =>
    refine ⟨h.tree, fun i hi => h.stack i ?_⟩
    cases hopen : findOpen s.doc t s.stack with
    | none =>
      simpa only [applyToken, hopen, Option.getD_none] using hi
    | some rest =>
      simp only [applyToken, hopen, Option.getD_some] at hi
      exact (findOpen_sublist s.doc t hopen).subset hi
  | element t a self =>
    have he := applyElement_tree h.tree h.top t a
    simp only [applyToken]
    split
    · next d heq =>
      rw [heq] at he
      exact hgrow he.1 he.2.1
    · next idx d heq =>
      rw [heq] at he
      split
      · refine ⟨he.1, fun i hi => ?_⟩
        rcases List.mem_cons.mp hi with rfl | hi
        · exact he.2.2 i rfl
        · exact lt_of_lt_of_le (h.stack i hi) he.2.1
      · exact hgrow he.1 he.2.1
  | style a sheet =>
    have he := applyElement_tree h.tree h.top .style a
    simp only [applyToken]
    split
    · next d heq =>
      rw [heq] at he
      exact hgrow he.1 he.2.1
    · next idx d heq =>
      rw [heq] at he
      refine hgrow ?_ ?_
      · rw [css_nodes]
        exact he.1
      · rw [css_nodes]
        exact he.2.1
  | script a =>
    have he := applyElement_tree h.tree h.top .script a
    exact hgrow he.1 he.2.1

/-- **Every run of the parser keeps the tree.** -/
theorem parseLoop_ok (fuel : ℕ) : ∀ (p : List UInt8) {s : ParseState}, StateOk s →
    StateOk (parseLoop fuel p s) := by
  induction fuel with
  | zero => exact fun _ _ h => h
  | succ fuel ih =>
    intro p s h
    rw [parseLoop]
    split
    · exact h
    · exact ih _ (applyToken_ok h _)

theorem init_ok (d : Document) : StateOk ⟨asterDocumentInit d, [0]⟩ := by
  have hnodes : (asterDocumentInit d).nodes = [Node.new none .root .unknown .none] := rfl
  refine ⟨?_, ?_⟩
  · rw [hnodes]
    refine ⟨by decide, ⟨_, rfl, rfl⟩, ?_, ?_⟩
    · intro i q hq hi
      have hlt := (List.getElem?_eq_some_iff.mp hq).1
      simp at hlt
      omega
    · intro p q hq
      have hlt := (List.getElem?_eq_some_iff.mp hq).1
      obtain rfl : p = 0 := by simpa using hlt
      obtain rfl := Option.some.inj hq
      exact .nil
  · intro i hi
    rw [hnodes, List.mem_singleton.mp hi]
    decide

/-- The nodes of a parsed document are a tree. -/
theorem asterParseHtml_tree (d : Document) (h : List UInt8) : Tree (asterParseHtml d h).2.nodes := by
  have hok := parseLoop_ok (cstr h).length (cstr h) (init_ok d)
  unfold asterParseHtml
  simp only
  split <;> exact hok.tree

end Orion.Aster
