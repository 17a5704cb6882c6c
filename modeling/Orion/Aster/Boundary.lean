import Orion.Aster.Tokens

/-!
# Token boundaries

A token that ends before the end of the text does not depend on what follows
(`nextToken_append`).  So a place between two tokens stays one when the text behind it changes, and
a script there is one token, whatever its body.
-/

namespace Orion.Aster

/-! ## Locality -/

theorem afterGt_append {a : List UInt8} (h : afterGt a ≠ []) (x : List UInt8) :
    afterGt (a ++ x) = afterGt a ++ x := by
  have hne : a.dropWhile (· ≠ 62) ≠ [] := by
    intro hnil
    exact h (by rw [afterGt, hnil]; rfl)
  have hpos := List.length_pos_of_ne_nil hne
  rw [afterGt, dropWhile_append_of_ne hne, List.drop_append_of_le_length (by omega)]
  rfl

theorem closep_append {e : List UInt8} : ∀ {a : List UInt8}, closep a e ≠ [] →
    ∀ x, closep (a ++ x) e = closep a e ++ x := by
  have hlong : ∀ {a : List UInt8}, closep a e ≠ [] → e.length ≤ a.length := by
    intro a
    induction a with
    | nil => exact fun h => absurd rfl h
    | cons c a ih =>
      intro h
      rw [closep] at h
      split at h
      · next hci => exact startsCi_length hci
      · exact (ih h).trans (by simp)
  intro a
  induction a with
  | nil => exact fun h => absurd rfl h
  | cons c a ih =>
    intro h x
    have hci : ci (c :: a ++ x) e = ci (c :: a) e := startsCi_append (hlong h) x
    rw [List.cons_append] at hci
    rw [List.cons_append, closep, closep, hci]
    rw [closep] at h
    split
    · rfl
    · next hno =>
      rw [if_neg hno] at h
      exact ih h x

theorem afterComment_append : ∀ {a : List UInt8}, afterComment a ≠ [] →
    ∀ x, afterComment (a ++ x) = afterComment a ++ x := by
  intro a
  induction a with
  | nil => exact fun h => absurd rfl h
  | cons c a ih =>
    intro h x
    rw [List.cons_append, afterComment, afterComment]
    rw [afterComment] at h
    by_cases hend : (ascii "-->").isPrefixOf (c :: a) = true
    · have hend' : (ascii "-->").isPrefixOf (c :: (a ++ x)) = true := by
        rw [List.isPrefixOf_iff_prefix] at hend ⊢
        exact hend.trans (List.prefix_append (c :: a) x)
      rw [if_pos hend] at h
      have hpos := List.length_pos_of_ne_nil h
      rw [List.length_drop] at hpos
      rw [if_pos hend, if_pos hend', List.drop_append_of_le_length (by omega)]
    · rw [if_neg hend] at h
      -- the end of a comment is found further on, so that there are three characters here
      have hlong : 3 ≤ (c :: a).length := by
        cases a with
        | nil => exact absurd rfl h
        | cons d a =>
          cases a with
          | nil =>
            refine absurd ?_ h
            show (if (ascii "-->").isPrefixOf [d] = true then _ else _) = _
            split <;> rfl
          | cons e a => simp
      have hend' : ¬ (ascii "-->").isPrefixOf (c :: (a ++ x)) = true := by
        rw [List.isPrefixOf_iff_prefix] at hend ⊢
        intro hp
        exact hend (List.prefix_of_prefix_length_le hp (List.prefix_append (c :: a) x) hlong)
      rw [if_neg hend, if_neg hend', ih h]

theorem openToken_append {t : Tag} {a : List UInt8} (h : (openToken t a).2 ≠ [])
    (x : List UInt8) : openToken t (a ++ x) = ((openToken t a).1, (openToken t a).2 ++ x) := by
  -- the tag is closed inside
  have hgt : afterGt a ≠ [] := by
    intro hnil
    apply h
    unfold openToken
    simp only [hnil]
    repeat' split
    all_goals rfl
  have hne : a.dropWhile (· ≠ 62) ≠ [] := by
    intro hnil
    exact hgt (by rw [afterGt, hnil]; rfl)
  have hclose : ∀ {e : List UInt8}, afterGt (closep (afterGt a) e) ≠ [] →
      closep (afterGt a ++ x) e = closep (afterGt a) e ++ x ∧
        afterGt (closep (afterGt a ++ x) e) = afterGt (closep (afterGt a) e) ++ x := by
    intro e hrest
    have hfound : closep (afterGt a) e ≠ [] := by
      intro hnil
      exact hrest (by rw [hnil]; rfl)
    rw [closep_append hfound]
    exact ⟨rfl, afterGt_append hrest x⟩
  unfold openToken at h ⊢
  simp only [afterGt_append hgt, takeWhile_append_of_ne hne] at h ⊢
  split
  · next ht =>
    simp only [ht, if_true] at h
    obtain ⟨hfound, hrest⟩ := hclose h
    have hle := length_closep_le (ascii "</style") (afterGt a)
    rw [hrest, hfound]
    have hsheet : (afterGt a ++ x).take ((afterGt a ++ x).length
        - (closep (afterGt a) (ascii "</style") ++ x).length)
          = (afterGt a).take ((afterGt a).length - (closep (afterGt a) (ascii "</style")).length) := by
      rw [List.length_append, List.length_append, List.take_append_of_le_length (by omega)]
      have hnum : (afterGt a).length + x.length
          - ((closep (afterGt a) (ascii "</style")).length + x.length)
            = (afterGt a).length - (closep (afterGt a) (ascii "</style")).length := by omega
      rw [hnum]
    rw [hsheet]
  · next ht =>
    simp only [ht, if_false] at h
    split
    · next hs =>
      simp only [hs, if_true] at h
      rw [(hclose h).2]
    · rfl

theorem openToken_nil (t : Tag) : (openToken t []).2 = [] := by
  unfold openToken
  simp only
  repeat' split
  all_goals rfl

theorem tagToken_append {a : List UInt8} (h : (tagToken a).2 ≠ []) (x : List UInt8) :
    tagToken (a ++ x) = ((tagToken a).1, (tagToken a).2 ++ x) := by
  -- the name ends inside, behind the blanks before it
  have hname : ∀ {q : List UInt8}, (q.dropWhile sp).dropWhile tagNameChar ≠ [] →
      ((q ++ x).dropWhile sp).takeWhile tagNameChar = (q.dropWhile sp).takeWhile tagNameChar ∧
        ((q ++ x).dropWhile sp).dropWhile tagNameChar
          = (q.dropWhile sp).dropWhile tagNameChar ++ x := by
    intro q hq
    have hsp : q.dropWhile sp ≠ [] := by
      intro hnil
      exact hq (by rw [hnil]; rfl)
    rw [dropWhile_append_of_ne hsp]
    exact ⟨takeWhile_append_of_ne hq x, dropWhile_append_of_ne hq x⟩
  cases a with
  | nil => exact absurd (by decide) h
  | cons c a =>
    unfold tagToken at h ⊢
    simp only [List.head?_cons, List.cons_append, Option.some.injEq, List.drop_succ_cons,
      List.drop_zero] at h ⊢
    by_cases hc : c = 47
    · simp only [hc, if_true] at h ⊢
      have hq : (a.dropWhile sp).dropWhile tagNameChar ≠ [] := by
        intro hnil
        exact h (by rw [hnil]; rfl)
      obtain ⟨htake, hdrop⟩ := hname hq
      rw [htake, hdrop, afterGt_append h]
    · simp only [hc, if_false] at h ⊢
      have hq : ((c :: a).dropWhile sp).dropWhile tagNameChar ≠ [] := by
        intro hnil
        exact h (by rw [hnil]; exact openToken_nil _)
      obtain ⟨htake, hdrop⟩ := hname hq
      rw [List.cons_append] at htake hdrop
      rw [htake, hdrop, openToken_append h]

/-- Whether a comment begins does not depend on what follows, if the token ends inside. -/
theorem comment_append {a : List UInt8} (h : (nextToken (60 :: a)).2 ≠ []) (x : List UInt8) :
    ci (60 :: (a ++ x)) (ascii "<!--") = ci (60 :: a) (ascii "<!--") := by
  have hneedle : (ascii "<!--").length = 4 := by decide
  by_cases hlong : 4 ≤ (60 :: a).length
  · exact startsCi_append (s := 60 :: a) (hneedle ▸ hlong) x
  · have hshort : ci (60 :: a) (ascii "<!--") = false := by
      by_contra htrue
      have hle := startsCi_length (s := 60 :: a) (Bool.not_eq_false _ ▸ htrue)
      exact hlong (hneedle ▸ hle)
    rw [hshort]
    -- a shorter text that could go on as a comment has no token that ends inside
    cases a with
    | nil => exact absurd (by decide) h
    | cons d a =>
      by_cases hd : d = 33
      · subst hd
        refine absurd ?_ h
        have hskip : nextToken (60 :: 33 :: a) = (.skip, afterGt a) := by
          unfold nextToken
          rw [hshort]
          rfl
        rw [hskip]
        cases a with
        | nil => rfl
        | cons e a =>
          obtain rfl : a = [] := by
            simp only [List.length_cons] at hlong
            exact List.length_eq_zero_iff.mp (by omega)
          by_cases he : e = 62
          · simp [afterGt, he]
          · simp [afterGt, he]
      · exact ci_comment_ne hd (a ++ x)

/-- **A token that ends before the end of the text does not depend on what follows.** -/
theorem nextToken_append {a : List UInt8} (h : (nextToken a).2 ≠ []) (x : List UInt8) :
    nextToken (a ++ x) = ((nextToken a).1, (nextToken a).2 ++ x) := by
  cases a with
  | nil => exact absurd rfl h
  | cons c a =>
    by_cases hc : c = 60
    · subst hc
      have hcomment := comment_append h x
      cases a with
      | nil => exact absurd rfl h
      | cons d a =>
        unfold nextToken at h ⊢
        simp only [List.cons_append, List.head?_cons, ne_eq, not_true_eq_false, if_false,
          List.getElem?_cons_succ, List.getElem?_cons_zero, Option.some.injEq,
          List.drop_succ_cons, List.drop_zero] at h hcomment ⊢
        rw [hcomment]
        split
        · next hci =>
          rw [if_pos hci] at h
          have hlen : 4 ≤ (60 :: d :: a).length := startsCi_length hci
          simp only [List.length_cons] at hlen
          rw [List.drop_append_of_le_length (by omega), afterComment_append h]
        · next hci =>
          rw [if_neg hci] at h
          split
          · next hd =>
            rw [if_pos hd] at h
            have hgt := afterGt_append h x
            rw [List.cons_append, List.cons_append] at hgt
            rw [hgt]
          · next hd =>
            rw [if_neg hd] at h
            exact tagToken_append h x
    · have hhead : (c :: a).head? ≠ some 60 := by simpa using hc
      have hhead' : (c :: a ++ x).head? ≠ some 60 := by simpa using hc
      unfold nextToken at h ⊢
      rw [if_pos hhead] at h
      rw [if_pos hhead, if_pos hhead', takeWhile_append_of_ne h, dropWhile_append_of_ne h]

/-! ## Places between tokens -/

/-- Reading the tokens `ts` from `p` on ends at `q`. -/
inductive Reads : List UInt8 → List Token → List UInt8 → Prop
  | nil {p : List UInt8} : Reads p [] p
  | cons {p q : List UInt8} {ts : List Token} : p ≠ [] → Reads (nextToken p).2 ts q →
      Reads p ((nextToken p).1 :: ts) q

theorem Reads.tokens_eq {p q : List UInt8} {ts : List Token} (h : Reads p ts q) :
    tokens p = ts ++ tokens q := by
  induction h with
  | nil => rfl
  | cons hne _ ih => rw [tokens_cons hne, ih, List.cons_append]

theorem Reads.ne_nil {p q : List UInt8} {ts : List Token} (h : Reads p ts q) (hq : q ≠ []) :
    p ≠ [] := by
  cases h with
  | nil => exact hq
  | cons hne _ => exact hne

/-- A place between tokens stays one, whatever follows. -/
theorem Reads.append {p q : List UInt8} {ts : List Token} (h : Reads p ts q) (hq : q ≠ [])
    (x : List UInt8) : Reads (p ++ x) ts (q ++ x) := by
  induction h with
  | nil => exact .nil
  | @cons p q ts hne hrest ih =>
    have hstep := nextToken_append (hrest.ne_nil hq) x
    have hnext := ih hq
    have hfirst : (nextToken p).1 = (nextToken (p ++ x)).1 := by rw [hstep]
    rw [hfirst]
    refine .cons (by simp [hne]) ?_
    rw [hstep]
    exact hnext

/-- The tokenizer is between two tokens at the end of `pre`, when a script follows. -/
def BeforeScript (pre : List UInt8) : Prop :=
  ∃ ts, Reads (pre ++ ascii "<script>") ts (ascii "<script>")

/-- `e` does not occur in `b`, in any letter case. -/
def Lacks (e b : List UInt8) : Prop := ∀ s, s <:+ b → ci s e = false

/-- The end of a script is where it is written: no match begins in the body. -/
theorem closep_script {b : List UInt8} (h : Lacks (ascii "</script") b) (post : List UInt8) :
    closep (b ++ (ascii "</script>" ++ post)) (ascii "</script") = ascii "</script>" ++ post := by
  induction b with
  | nil => rfl
  | cons c b ih =>
    have hneedle : (ascii "</script").length = 8 := by decide
    have hmark : ∀ k < 8, 1 ≤ k → ((ascii "</script").map lowerAscii)[k]? ≠ some 60 := by decide
    have hno : ci (c :: b ++ (ascii "</script>" ++ post)) (ascii "</script") = false := by
      by_cases hlong : 8 ≤ (c :: b).length
      · have hbody : ci (c :: b) (ascii "</script") = false := h _ List.suffix_rfl
        rw [← hbody]
        exact startsCi_append (hneedle ▸ hlong) _
      · -- a match across the end of the body would have a `<` inside
        by_contra htrue
        have hci : startsCi (c :: b ++ (ascii "</script>" ++ post)) (ascii "</script") = true :=
          Bool.not_eq_false _ ▸ htrue
        obtain ⟨t, ht⟩ := List.isPrefixOf_iff_prefix.mp hci
        have hk : (c :: b).length < 8 := by omega
        refine hmark (c :: b).length hk (by simp) ?_
        have hget := congrArg (fun l : List UInt8 => l[(c :: b).length]?) ht
        beta_reduce at hget
        rw [List.getElem?_append_left (by simpa [hneedle] using hk)] at hget
        rw [hget, List.getElem?_map, List.getElem?_append_right le_rfl, Nat.sub_self]
        rfl
    rw [List.cons_append] at hno ⊢
    rw [closep, hno]
    exact ih fun s hs => h s (hs.trans (List.suffix_cons c b))

/-- **A script is one token, whatever its body.** -/
theorem nextToken_script {b : List UInt8} (h : Lacks (ascii "</script") b) (post : List UInt8) :
    nextToken (ascii "<script>" ++ (b ++ (ascii "</script>" ++ post))) = (.script [], post) := by
  have hopen : nextToken (ascii "<script>" ++ (b ++ (ascii "</script>" ++ post)))
      = (.script [], afterGt (closep (b ++ (ascii "</script>" ++ post)) (ascii "</script"))) := rfl
  rw [hopen, closep_script h]
  rfl

/-- A page with a script. -/
def scriptedPage (pre b post : List UInt8) : List UInt8 :=
  pre ++ ascii "<script>" ++ (b ++ (ascii "</script>" ++ post))

/-- **The tokens of a page do not depend on the body of a script.** -/
theorem tokens_scriptedPage {pre : List UInt8} (hpre : BeforeScript pre) {b b' : List UInt8}
    (h : Lacks (ascii "</script") b) (h' : Lacks (ascii "</script") b') (post : List UInt8) :
    tokens (scriptedPage pre b post) = tokens (scriptedPage pre b' post) := by
  obtain ⟨ts, hts⟩ := hpre
  have htokens : ∀ {b : List UInt8}, Lacks (ascii "</script") b →
      tokens (scriptedPage pre b post) = ts ++ .script [] :: tokens post := by
    intro b hb
    have hne : ascii "<script>" ++ (b ++ (ascii "</script>" ++ post)) ≠ [] := by
      simp [ascii]
    rw [scriptedPage, (hts.append (by decide) _).tokens_eq, tokens_cons hne, nextToken_script hb]
  rw [htokens h, htokens h']

end Orion.Aster
