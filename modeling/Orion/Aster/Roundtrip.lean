import Orion.Aster.Reads
import Orion.Aster.Serial

/-!
# Parsing inverts serialisation

The tokens of a serialised forest rebuild it: decoding undoes the entities (`decode_escape`), each
element is closed where it was opened, and so the nodes are the forest in preorder
(`applyAll_forest`).
-/

namespace Orion.Aster

/-! ## Decoding -/

/-- The head of an escaped text is decoded. -/
theorem nextChar_escape (c : UInt8) (rest : List UInt8) :
    ∃ c' rest', escapeChar c ++ rest = c' :: rest' ∧ nextChar c' rest' = (c, rest) := by
  by_cases h60 : c = 60
  · subst h60
    exact ⟨38, _, rfl, rfl⟩
  by_cases h62 : c = 62
  · subst h62
    exact ⟨38, _, rfl, rfl⟩
  by_cases h38 : c = 38
  · subst h38
    exact ⟨38, _, rfl, rfl⟩
  refine ⟨c, rest, by simp [escapeChar, h60, h62, h38], ?_⟩
  have hno : ∀ p, ci (c :: rest) (38 :: p) = false := startsCi_head_ne (by decide) h38 rest
  have hnone : entity (c :: rest) = none := by
    unfold entity
    rw [show ascii "&lt;" = 38 :: ascii "lt;" from rfl, show ascii "&gt;" = 38 :: ascii "gt;" from rfl,
      show ascii "&amp;" = 38 :: ascii "amp;" from rfl,
      show ascii "&nbsp;" = 38 :: ascii "nbsp;" from rfl,
      show ascii "&quot;" = 38 :: ascii "quot;" from rfl]
    simp [hno]
  rw [nextChar, hnone]

theorem length_nextChar_le (c : UInt8) (rest : List UInt8) :
    (nextChar c rest).2.length ≤ rest.length := by
  unfold nextChar
  split
  · rw [List.length_drop]
    omega
  · exact le_rfl

/-- What is left to decode: `ws` says that a blank was read and not yet written. -/
structure Rest (ws : Bool) (out s : List UInt8) : Prop where
  chars : ∀ c ∈ s, sp c = true → c = 32
  head : ws = true ∨ out = [] → s.head? ≠ some 32
  last : s.getLast? ≠ some 32
  single : ¬ [32, 32] <:+: s
  pending : ws = true → out ≠ [] ∧ s ≠ []

/-- **Decoding an escaped text** appends it, with the blank that was read before it. -/
theorem decodeLoop_escape : ∀ (s : List UInt8) {fuel : ℕ} {ws : Bool} {out : List UInt8},
    Rest ws out s → (escape s).length ≤ fuel →
    out.length + (if ws then 1 else 0) + s.length ≤ 767 →
    decodeLoop 768 fuel (escape s) ws out = out ++ (if ws then [32] else []) ++ s := by
  intro s
  induction s with
  | nil =>
    intro fuel ws out hrest _ _
    have hws : ws = false := by
      cases ws with
      | false => rfl
      | true => exact absurd rfl (hrest.pending rfl).2
    subst hws
    cases fuel <;> simp [escape, decodeLoop]
  | cons c s ih =>
    intro fuel ws out hrest hfuel hlen
    obtain ⟨c', rest', hsplit, hnext⟩ := nextChar_escape c (escape s)
    have hescape : escape (c :: s) = c' :: rest' := by rw [← hsplit]; rfl
    have hshort : (escape s).length ≤ rest'.length := by
      have h := length_nextChar_le c' rest'
      rwa [hnext] at h
    rw [hescape] at hfuel ⊢
    obtain ⟨fuel, rfl⟩ : ∃ k, fuel = k + 1 := ⟨fuel - 1, by simp at hfuel; omega⟩
    simp only [List.length_cons] at hfuel hlen
    have htail : ∀ x ∈ s, sp x = true → x = 32 := fun x hx => hrest.chars x (by simp [hx])
    have hsingle : ¬ [32, 32] <:+: s := fun h => hrest.single (List.infix_cons h)
    have hlast : s.getLast? ≠ some 32 := by
      cases s with
      | nil => simp
      | cons x s =>
        have h := hrest.last
        rwa [List.getLast?_cons_cons] at h
    rw [decodeLoop, if_pos (by split at hlen <;> omega), hnext]
    simp only
    by_cases hc : sp c = true
    · -- a blank waits for the next character
      obtain rfl := hrest.chars c (by simp) hc
      have hws : ws = false := by
        cases ws with
        | false => rfl
        | true => exact absurd rfl (hrest.head (.inl rfl))
      subst hws
      have hout : out ≠ [] := fun h => hrest.head (.inr h) rfl
      have hs : s ≠ [] := by
        rintro rfl
        exact hrest.last rfl
      have hhead : s.head? ≠ some 32 := by
        intro hhead
        obtain ⟨more, rfl⟩ := List.head?_eq_some_iff.mp hhead
        exact hrest.single ⟨[], more, rfl⟩
      rw [if_pos hc, ih ⟨htail, fun _ => hhead, hlast, hsingle, fun _ => ⟨hout, hs⟩⟩ (by omega)
        (by simp at hlen ⊢; omega)]
      simp
    · -- another character is written, with the blank before it
      have hrest' : ∀ o : List UInt8, o ≠ [] → Rest false o s :=
        fun o ho => ⟨htail, fun h => h.elim (by simp) (fun h => absurd h ho), hlast, hsingle, by simp⟩
      rw [if_neg hc]
      cases ws with
      | false =>
        simp only [Bool.false_and, Bool.false_eq_true, if_false] at hlen ⊢
        rw [ih (hrest' _ (by simp)) (by omega) (by simp; omega)]
        simp
      | true =>
        have hout := (hrest.pending rfl).1
        simp only [Bool.true_and, decide_eq_true_eq, ne_eq, hout, not_false_eq_true, if_true] at hlen ⊢
        rw [ih (hrest' _ (by simp)) (by omega) (by simp; omega)]
        simp

/-- Decoding undoes the entities. -/
theorem decode_escape {s : List UInt8} (h : TextOk s) : decode 768 (escape s) = s := by
  have hrest : Rest false [] s :=
    ⟨fun c hc => (h.chars c hc).2, fun _ => h.head, h.last, h.single, by simp⟩
  have hlen := h.length_le
  rw [decode, if_neg (by decide), decodeLoop_escape s hrest le_rfl (by simpa using hlen)]
  simp

/-! ## Nodes -/

/-- What the tree says of a node. -/
structure View where
  parent : Option ℕ
  type : NodeType
  tag : Tag
  text : List UInt8
  deriving Repr, DecidableEq

/-- The nodes of a forest in preorder, the first with index `i`, below node `p`. -/
def preorder (p : ℕ) : ℕ → Forest → List View
  | _, .nil => []
  | i, .text s f => ⟨some p, .text, .unknown, s⟩ :: preorder p (i + 1) f
  | i, .elem t c f =>
    ⟨some p, .element, t, []⟩ :: (preorder i (i + 1) c ++ preorder p (i + 1 + c.size) f)

theorem length_preorder : ∀ (f : Forest) (p i : ℕ), (preorder p i f).length = f.size := by
  intro f
  induction f with
  | nil => exact fun _ _ => rfl
  | text s f ih =>
    intro p i
    rw [preorder, List.length_cons, ih, Forest.size]
  | elem t c f ihc ih =>
    intro p i
    rw [preorder, List.length_cons, List.length_append, ihc, ih, Forest.size]

/-- The node with the string that its text slice was stored for, and the length of the slice. -/
def Node.view (n : Node) : View × ℕ := (⟨n.parent, n.type, n.tag, n.text.asked⟩, n.text.len)

/-- A node of a tree with the length that its slice gets. -/
def View.sized (v : View) : View × ℕ := (v, u16 v.text.length)

theorem linkChild_view (nodes : List Node) (p i : ℕ) :
    (linkChild nodes p i).map Node.view = nodes.map Node.view :=
  linkChild_map (fun _ _ => rfl) (fun _ _ => rfl) nodes p i

/-- A piece of text becomes a text node. -/
theorem applyText_view {d : Document} (hroom : d.nodes.length < asterMaxNodes) (top : ℕ)
    {raw t : List UInt8} (hraw : decode 768 raw = t) (ht : t ≠ []) :
    (applyText d top raw).nodes.map Node.view
      = d.nodes.map Node.view ++ [View.sized ⟨some top, .text, .unknown, t⟩] := by
  unfold applyText
  simp only [hraw, ht, if_false]
  have hnodes := storeSlice_nodes d t
  rcases add_cases (storeSlice d t).2 top .text .unknown (storeSlice d t).1 with
    ⟨hno, -⟩ | ⟨-, hadd⟩
  · rw [hnodes] at hno
    omega
  have hview : (linkChild ((storeSlice d t).2.nodes ++
      [Node.new (some top) .text .unknown (storeSlice d t).1]) top
      (storeSlice d t).2.nodes.length).map Node.view
        = d.nodes.map Node.view ++ [View.sized ⟨some top, .text, .unknown, t⟩] := by
    rw [linkChild_view, hnodes, List.map_append]
    rfl
  rw [hadd]
  simp only
  split <;> exact hview

/-- An opening tag without attributes becomes an element. -/
theorem applyElement_view {d : Document} (hroom : d.nodes.length < asterMaxNodes) (top : ℕ)
    (t : Tag) : (applyElement d top t []).1 = some d.nodes.length ∧
      (applyElement d top t []).2.nodes.map Node.view
        = d.nodes.map Node.view ++ [View.sized ⟨some top, .element, t, []⟩] := by
  unfold applyElement
  rcases add_cases d top .element t .none with ⟨hno, -⟩ | ⟨-, hadd⟩
  · omega
  have hview : (linkChild (d.nodes ++ [Node.new (some top) .element t .none]) top
      d.nodes.length).map Node.view = d.nodes.map Node.view ++ [View.sized ⟨some top, .element, t, []⟩] := by
    rw [linkChild_view, List.map_append]
    rfl
  rw [hadd]
  simp only
  generalize linkChild (d.nodes ++ [Node.new (some top) .element t .none]) top d.nodes.length
    = nodes at hview ⊢
  cases hn : nodes[d.nodes.length]? with
  | none => exact ⟨rfl, hview⟩
  | some n =>
    have hattrs : attrs { d with nodes := nodes } n [] = (n, { d with nodes := nodes }) := rfl
    simp only [hattrs]
    refine ⟨trivial, ?_⟩
    obtain ⟨hlt, hval⟩ := List.getElem?_eq_some_iff.mp hn
    rw [← hval, List.set_getElem_self]
    exact hview

theorem tagOf_view {d : Document} {i : ℕ} {v : View}
    (h : (d.nodes.map Node.view)[i]? = some v.sized) : tagOf d i = v.tag := by
  rw [List.getElem?_map] at h
  obtain ⟨n, hn, hv⟩ := Option.map_eq_some_iff.mp h
  rw [tagOf, hn]
  exact congrArg (fun w => w.1.tag) hv

/-! ## Trees -/

theorem Forest.size_eq_zero {f : Forest} (h : f.size = 0) : f = .nil := by
  cases f with
  | nil => rfl
  | text _ _ => simp [Forest.size] at h
  | elem _ _ _ => simp [Forest.size] at h

/-- An element is opened unless it is void or the stack is full. -/
theorem applyToken_element {s : ParseState} {t : Tag} {i : ℕ}
    (hidx : (applyElement s.doc (s.stack.headD 0) t []).1 = some i) :
    applyToken s (.element t [] false)
      = if voidtag t then { s with doc := (applyElement s.doc (s.stack.headD 0) t []).2 }
        else if s.stack.length < 48 then
          ⟨(applyElement s.doc (s.stack.headD 0) t []).2, i :: s.stack⟩
        else { s with doc := (applyElement s.doc (s.stack.headD 0) t []).2 } := by
  simp only [applyToken]
  generalize applyElement s.doc (s.stack.headD 0) t [] = r at hidx ⊢
  obtain ⟨j, d⟩ := r
  simp only at hidx
  subst hidx
  cases voidtag t <;> simp

/-- **Applying the tokens of a forest** adds its nodes in preorder; unless the nodes run out, every
element is closed again. -/
theorem applyAll_forest : ∀ (f : Forest) {s : ParseState}, f.Ok → s.stack ≠ [] →
    s.doc.nodes.length + f.size ≤ asterMaxNodes → s.stack.length + f.depth ≤ 48 →
    (applyAll s f.tokens).doc.nodes.map Node.view
        = s.doc.nodes.map Node.view ++
          (preorder (s.stack.headD 0) s.doc.nodes.length f).map View.sized ∧
      ((applyAll s f.tokens).doc.nodes.length < asterMaxNodes →
        (applyAll s f.tokens).stack = s.stack) := by
  intro f
  induction f with
  | nil =>
    intro s _ _ _ _
    exact ⟨by simp [Forest.tokens, applyAll, preorder], fun _ => rfl⟩
  | text x f ih =>
    rintro s ⟨hx, -, hok⟩ hstack hsize hdepth
    rw [Forest.size] at hsize
    rw [Forest.depth] at hdepth
    have hroom : s.doc.nodes.length < asterMaxNodes := by omega
    have hview := applyText_view hroom (s.stack.headD 0) (decode_escape hx) hx.ne_nil
    have hlen : (applyText s.doc (s.stack.headD 0) (escape x)).nodes.length
        = s.doc.nodes.length + 1 := by
      have h := congrArg List.length hview
      simpa using h
    rw [Forest.tokens, applyAll, if_neg (by omega)]
    have hstep : applyToken s (.text (escape x))
        = { s with doc := applyText s.doc (s.stack.headD 0) (escape x) } := rfl
    rw [hstep]
    obtain ⟨hnodes, hend⟩ :=
      @ih { s with doc := applyText s.doc (s.stack.headD 0) (escape x) } hok hstack
        (by simp only [hlen]; omega) hdepth
    refine ⟨?_, hend⟩
    rw [hnodes, hview, hlen, preorder]
    simp
  | elem t c f ihc ih =>
    rintro s ⟨-, hvoid, hcok, hok⟩ hstack hsize hdepth
    rw [Forest.size] at hsize
    rw [Forest.depth] at hdepth
    have hroom : s.doc.nodes.length < asterMaxNodes := by omega
    obtain ⟨hidx, hview⟩ := applyElement_view hroom (s.stack.headD 0) t
    have hlen : (applyElement s.doc (s.stack.headD 0) t []).2.nodes.length
        = s.doc.nodes.length + 1 := by
      have h := congrArg List.length hview
      simpa using h
    have hstep : applyToken s (.element t [] false)
        = if voidtag t then { s with doc := (applyElement s.doc (s.stack.headD 0) t []).2 }
          else if s.stack.length < 48 then
            ⟨(applyElement s.doc (s.stack.headD 0) t []).2, s.doc.nodes.length :: s.stack⟩
          else { s with doc := (applyElement s.doc (s.stack.headD 0) t []).2 } :=
      applyToken_element hidx
    rw [Forest.tokens, applyAll, if_neg (by omega), hstep]
    generalize (applyElement s.doc (s.stack.headD 0) t []).2 = d at hview hlen ⊢
    cases hv : voidtag t with
    | true =>
      -- a void element has no content and is not opened
      obtain rfl := hvoid hv
      simp only [hv, if_true] at hdepth ⊢
      obtain ⟨hnodes, hend⟩ := @ih { s with doc := d } hok hstack (by simp only [hlen]; omega)
        (by show s.stack.length + f.depth ≤ 48; omega)
      refine ⟨?_, hend⟩
      rw [List.nil_append, hnodes, hview, hlen, preorder]
      simp [preorder, Forest.size]
    | false =>
      simp only [hv, Bool.false_eq_true, if_false] at hdepth ⊢
      rw [if_pos (by omega), applyAll_append, applyAll_append]
      obtain ⟨hcnodes, hcend⟩ := @ihc ⟨d, s.doc.nodes.length :: s.stack⟩ hcok (by simp)
        (by simp only [hlen]; omega) (by simp only [List.length_cons]; omega)
      simp only [List.headD_cons] at hcnodes hcend
      generalize applyAll ⟨d, s.doc.nodes.length :: s.stack⟩ c.tokens = s2 at hcnodes hcend ⊢
      have hlen2 : s2.doc.nodes.length = s.doc.nodes.length + 1 + c.size := by
        have h := congrArg List.length hcnodes
        simpa [hlen, length_preorder] using h
      rw [hview, hlen, List.append_assoc] at hcnodes
      by_cases hfull : s2.doc.nodes.length ≥ asterMaxNodes
      · -- the last node was added inside: nothing is left of the forest
        have hnil : f = .nil := Forest.size_eq_zero (by omega)
        rw [applyAll_full hfull, applyAll_full hfull]
        refine ⟨?_, fun h => absurd hfull (by omega)⟩
        rw [hcnodes, hnil, preorder, preorder]
        simp
      · have htag : tagOf s2.doc s.doc.nodes.length = t := by
          refine tagOf_view (v := ⟨some (s.stack.headD 0), .element, t, []⟩) ?_
          rw [hcnodes, List.getElem?_append_right (by simp)]
          simp
        have hclose : applyToken s2 (.close t) = ⟨s2.doc, s.stack⟩ := by
          obtain ⟨j, rest, hs⟩ := List.exists_cons_of_ne_nil hstack
          have hopen : findOpen s2.doc t s2.stack = some s.stack := by
            rw [hcend (by omega), hs, findOpen, if_pos htag]
          show (⟨s2.doc, (findOpen s2.doc t s2.stack).getD s2.stack⟩ : ParseState) = _
          rw [hopen]
          rfl
        have hone : applyAll s2 [.close t] = ⟨s2.doc, s.stack⟩ := by
          rw [applyAll, if_neg hfull, hclose]
          rfl
        rw [hone]
        obtain ⟨hnodes, hend⟩ := @ih ⟨s2.doc, s.stack⟩ hok hstack (by simp only [hlen2]; omega)
          (by show s.stack.length + f.depth ≤ 48; omega)
        refine ⟨?_, hend⟩
        simp only at hnodes
        rw [hnodes, hcnodes, hlen2, preorder]
        simp

/-! ## Texts -/

/-- The texts of a list of tokens. -/
def tokensTexts : ℕ → ℕ → List Token → List (List UInt8)
  | _, _, [] => []
  | nodes, rules, t :: ts =>
    if nodes ≥ asterMaxNodes then []
    else (tokenTexts rules t).1 ++ tokensTexts (nodes + tokenNodes t) (tokenTexts rules t).2 ts

theorem pageTextsLoop_eq : ∀ (fuel : ℕ) (p : List UInt8) (nodes rules : ℕ),
    pageTextsLoop fuel p nodes rules = tokensTexts nodes rules (tokenize fuel p) := by
  intro fuel
  induction fuel with
  | zero => exact fun _ _ _ => rfl
  | succ fuel ih =>
    intro p nodes rules
    rw [pageTextsLoop, tokenize]
    by_cases hp : p = []
    · rw [if_pos (.inl hp), if_pos hp]
      rfl
    · rw [if_neg hp, tokensTexts]
      by_cases hfull : nodes ≥ asterMaxNodes
      · rw [if_pos (.inr hfull), if_pos hfull]
      · rw [if_neg (not_or.mpr ⟨hp, hfull⟩), if_neg hfull, ih]

/-- The number of bytes in texts. -/
def totalLength (rs : List (List UInt8)) : ℕ := (rs.map List.length).sum

theorem totalLength_append (rs rs' : List (List UInt8)) :
    totalLength (rs ++ rs') = totalLength rs + totalLength rs' := by
  simp [totalLength]

/-- Texts that fit together fit one after the other. -/
theorem allFit_of_totalLength : ∀ (rs : List (List UInt8)) {pool : List UInt8},
    pool.length + totalLength rs ≤ asterTextCap - 1 → AllFit pool rs := by
  intro rs
  induction rs with
  | nil => exact fun _ => trivial
  | cons r rs ih =>
    intro pool h
    have hsum : totalLength (r :: rs) = r.length + totalLength rs := by simp [totalLength]
    have hafter : (poolAfter pool r).length ≤ pool.length + r.length := by
      unfold poolAfter
      split
      · omega
      · simp only [List.length_append, List.length_take]
        omega
    exact ⟨.inr (.inl (by omega)), ih (by omega)⟩

/-- The bytes that a token without attributes stores. -/
def tokenBytes : Token → ℕ
  | .text raw => (decode 768 raw).length
  | _ => 0

theorem totalLength_tokensTexts : ∀ (ts : List Token) (nodes rules : ℕ),
    (∀ t ∈ ts, ∀ rules, totalLength (tokenTexts rules t).1 = tokenBytes t) →
    totalLength (tokensTexts nodes rules ts) ≤ (ts.map tokenBytes).sum := by
  intro ts
  induction ts with
  | nil => exact fun _ _ _ => le_rfl
  | cons t ts ih =>
    intro nodes rules h
    rw [tokensTexts]
    split
    · exact Nat.zero_le _
    · have hrest := ih (nodes + tokenNodes t) (tokenTexts rules t).2
        fun t' ht' => h t' (List.mem_cons_of_mem _ ht')
      rw [totalLength_append, h t (by simp), List.map_cons, List.sum_cons]
      omega

theorem Forest.tokens_bytes : ∀ {f : Forest}, f.Ok →
    (∀ t ∈ f.tokens, ∀ rules, totalLength (tokenTexts rules t).1 = tokenBytes t) ∧
      (f.tokens.map tokenBytes).sum = f.textBytes := by
  have htext : ∀ raw rules, totalLength (tokenTexts rules (.text raw)).1 = tokenBytes (.text raw) := by
    intro raw rules
    simp [tokenTexts, totalLength, tokenBytes]
  have hopen : ∀ t rules, totalLength (tokenTexts rules (.element t [] false)).1 = 0 :=
    fun _ _ => rfl
  have hclose : ∀ t rules, totalLength (tokenTexts rules (.close t)).1 = 0 := fun _ _ => rfl
  intro f
  induction f with
  | nil => exact fun _ => ⟨by simp [Forest.tokens], rfl⟩
  | text s f ih =>
    rintro ⟨hs, -, hok⟩
    obtain ⟨hall, hsum⟩ := ih hok
    refine ⟨?_, ?_⟩
    · rw [Forest.tokens, List.forall_mem_cons]
      exact ⟨htext _, hall⟩
    · rw [Forest.tokens, List.map_cons, List.sum_cons, hsum, Forest.textBytes, tokenBytes,
        decode_escape hs]
  | elem t c f ihc ih =>
    rintro ⟨-, hvoid, hcok, hok⟩
    obtain ⟨hcall, hcsum⟩ := ihc hcok
    obtain ⟨hall, hsum⟩ := ih hok
    cases hv : voidtag t with
    | true =>
      obtain rfl := hvoid hv
      refine ⟨?_, ?_⟩
      · rw [Forest.tokens, hv, List.forall_mem_cons]
        exact ⟨hopen t, hall⟩
      · rw [Forest.tokens, hv, Forest.textBytes, List.map_cons, List.sum_cons]
        simpa [tokenBytes, Forest.textBytes] using hsum
    | false =>
      refine ⟨?_, ?_⟩
      · rw [Forest.tokens, hv, List.forall_mem_cons]
        simp only [Bool.false_eq_true, if_false, List.forall_mem_append]
        refine ⟨hopen t, ⟨hcall, ?_⟩, hall⟩
        intro t' ht'
        rw [List.mem_singleton.mp ht']
        exact hclose t
      · rw [Forest.tokens, hv, Forest.textBytes]
        simp only [Bool.false_eq_true, if_false, List.map_cons, List.map_append, List.sum_cons,
          List.sum_append, List.map_nil, List.sum_nil, hcsum, hsum, tokenBytes]
        omega

/-! ## The round trip -/

theorem Serial.ne_zero {f : Forest} {out : List UInt8} (h : Serial f out) : f.Ok →
    ∀ c ∈ out, c ≠ 0 := by
  have hname : ∀ {n : List UInt8} {t : Tag}, Spells n t → ∀ c ∈ n, c ≠ 0 :=
    fun hn c hc => plainByte_ne (hn.plain c hc) (by decide)
  have hentity : ∀ c ∈ ascii "&ltgamp;", c ≠ 0 := by decide +kernel
  induction h with
  | nil => simp
  | @text s out f hser ih =>
    rintro ⟨hs, -, hok⟩ c hc
    rcases List.mem_append.mp hc with hc | hc
    · rcases mem_escape hc with ⟨hx, -⟩ | hc
      · exact (hs.chars c hx).1
      · exact hentity c hc
    · exact ih hok c hc
  | @void t n out f _ hn _ ih =>
    rintro ⟨-, -, -, hok⟩ c hc
    simp only [List.mem_cons, List.mem_append] at hc
    rcases hc with rfl | hc | rfl | hc
    · decide
    · exact hname hn c hc
    · decide
    · exact ih hok c hc
  | @elem t n m inner out c f _ hn hm _ _ ihc ih =>
    rintro ⟨-, -, hcok, hok⟩ x hx
    simp only [List.mem_cons, List.mem_append] at hx
    rcases hx with rfl | hx | rfl | hx | rfl | rfl | hx | rfl | hx
    · decide
    · exact hname hn x hx
    · decide
    · exact ihc hcok x hx
    · decide
    · decide
    · exact hname hm x hx
    · decide
    · exact ih hok x hx

theorem preorder_text_le : ∀ {f : Forest}, f.Ok → ∀ {p i : ℕ}, ∀ v ∈ preorder p i f,
    v.text.length ≤ 767 := by
  intro f
  induction f with
  | nil => simp [preorder]
  | text s f ih =>
    rintro ⟨hs, -, hok⟩ p i
    rw [preorder, List.forall_mem_cons]
    exact ⟨hs.length_le, ih hok⟩
  | elem t c f ihc ih =>
    rintro ⟨-, -, hcok, hok⟩ p i
    rw [preorder, List.forall_mem_cons, List.forall_mem_append]
    exact ⟨by simp, ihc hcok, ih hok⟩

/-- A node as the document has it, with the bytes of its text. -/
def Document.view (d : Document) (n : Node) : View := ⟨n.parent, n.type, n.tag, d.bytes n.text.toSpan⟩

/-- **Parsing inverts serialisation.**  The nodes of a page that was written from a forest are the
root and the forest in preorder, with its parents, tags and texts. -/
theorem aster_parse_serialised (d₀ : Document) {f : Forest} {html : List UInt8} (hok : f.Ok)
    (hdepth : f.depth ≤ 47) (hsize : f.size ≤ 383) (hbytes : f.textBytes ≤ 24575)
    (hser : Serial f html) :
    (asterParseHtml d₀ html).2.nodes.map (asterParseHtml d₀ html).2.view
      = ⟨none, .root, .unknown, []⟩ :: preorder 0 1 f := by
  have hcstr : cstr html = html := by
    refine List.takeWhile_eq_self_iff.mpr fun c hc => ?_
    exact decide_eq_true (hser.ne_zero hok c hc)
  have htokens : tokens html = f.tokens := by
    have h := @tokens_serial f html hser hok [] (.inl rfl)
    simpa using h
  -- the texts of the page fit
  have hbacked : TextBacked (asterParseHtml d₀ html).2 := by
    rw [textBacked_iff, pageTexts, hcstr, pageTextsLoop_eq]
    show AllFit [] (tokensTexts 1 0 (tokens html))
    rw [htokens]
    obtain ⟨hall, hsum⟩ := Forest.tokens_bytes hok
    have hle := totalLength_tokensTexts f.tokens 1 0 hall
    have hcap : asterTextCap - 1 = 24575 := rfl
    exact allFit_of_totalLength _ (by rw [List.length_nil, hcap]; omega)
  -- the tokens build the tree
  have hnodes : (asterParseHtml d₀ html).2.nodes.map Node.view
      = (⟨none, .root, .unknown, []⟩ :: preorder 0 1 f).map View.sized := by
    have htree := (@applyAll_forest f ⟨asterDocumentInit d₀, [0]⟩ hok (by simp)
      (by show 1 + f.size ≤ 384; omega) (by show 1 + f.depth ≤ 48; omega)).1
    have hloop : parseLoop (cstr html).length (cstr html) ⟨asterDocumentInit d₀, [0]⟩
        = applyAll ⟨asterDocumentInit d₀, [0]⟩ f.tokens := by
      rw [parseLoop_eq_applyAll, hcstr, ← htokens]
      rfl
    have hdoc : (asterParseHtml d₀ html).2.nodes
        = (applyAll ⟨asterDocumentInit d₀, [0]⟩ f.tokens).doc.nodes := by
      unfold asterParseHtml
      rw [hloop]
      simp only
      split <;> rfl
    rw [hdoc, htree]
    rfl
  generalize (asterParseHtml d₀ html).2 = d at hbacked hnodes
  apply List.ext_getElem?
  intro i
  have hi := congrArg (fun l => l[i]?) hnodes
  simp only [List.getElem?_map] at hi
  rw [List.getElem?_map]
  generalize hv : (⟨none, .root, .unknown, []⟩ :: preorder 0 1 f : List View)[i]? = v at hi ⊢
  cases hn : d.nodes[i]? with
  | none =>
    rw [hn] at hi
    exact (Option.map_eq_none_iff.mp hi.symm).symm
  | some n =>
    rw [hn] at hi
    obtain ⟨w, rfl, hw⟩ := Option.map_eq_some_iff.mp hi.symm
    have htext : w.text.length ≤ 767 := by
      rcases List.mem_cons.mp (List.mem_of_getElem? hv) with rfl | hmem
      · exact Nat.zero_le _
      · exact preorder_text_le hok w hmem
    have hview : w = ⟨n.parent, n.type, n.tag, n.text.asked⟩ := congrArg Prod.fst hw
    have hlen : u16 w.text.length = n.text.len := congrArg Prod.snd hw
    have hasked : w.text = n.text.asked := congrArg View.text hview
    -- the slice holds its text, and an empty slice was asked for nothing
    have hheld : d.bytes n.text.toSpan = w.text := by
      by_cases hzero : n.text.len = 0
      · have hnil : w.text = [] := by
          rw [hzero, u16, Nat.mod_eq_of_lt (by omega)] at hlen
          exact List.length_eq_zero_iff.mp hlen
        rw [hnil]
        exact List.length_eq_zero_iff.mp (by rw [length_bytes, hzero])
      · rw [hasked]
        exact (hbacked.1 n (List.mem_of_getElem? hn) n.text (by simp [Node.slices]) hzero).2.2
    rw [Option.map_some, Document.view, hheld, hasked, hview]

/-- A division with a text, a line break and an empty paragraph. -/
theorem aster_parse_serialised_division :
    (asterParseHtml .zero (ascii "<DIV>a &lt; b<br><p></P></div>")).2.nodes.map
        (asterParseHtml .zero (ascii "<DIV>a &lt; b<br><p></P></div>")).2.view
      = [⟨none, .root, .unknown, []⟩, ⟨some 0, .element, .div, []⟩,
        ⟨some 1, .text, .unknown, ascii "a < b"⟩, ⟨some 1, .element, .br, []⟩,
        ⟨some 1, .element, .p, []⟩] := by
  have htext : TextOk (ascii "a < b") :=
    ⟨by decide, by decide, by decide +kernel, by decide, by decide, by decide⟩
  have hk : Known .div ∧ Known .br ∧ Known .p := by
    simp [Known]
  have hspells : Spells (ascii "DIV") .div ∧ Spells (ascii "div") .div ∧ Spells (ascii "br") .br ∧
      Spells (ascii "p") .p ∧ Spells (ascii "P") .p := by
    unfold Spells
    decide
  obtain ⟨hdiv, hdiv', hbr, hp, hp'⟩ := hspells
  have hser : Serial (.elem .div (.text (ascii "a < b") (.elem .br .nil (.elem .p .nil .nil))) .nil)
      (ascii "<DIV>a &lt; b<br><p></P></div>") :=
    .elem rfl hdiv hdiv' (.text (.void rfl hbr (.elem rfl hp hp' .nil .nil))) .nil
  have hok : Forest.Ok
      (.elem .div (.text (ascii "a < b") (.elem .br .nil (.elem .p .nil .nil))) .nil) :=
    ⟨hk.1, by simp [voidtag], ⟨htext, rfl, hk.2.1, fun _ => rfl, trivial, hk.2.2, by simp [voidtag],
      trivial, trivial⟩, trivial⟩
  exact aster_parse_serialised .zero hok (by decide) (by decide) (by decide) hser

end Orion.Aster
