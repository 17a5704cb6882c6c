import Orion.Aster.Parse

/-!
# Markup as a list of tokens

The parser reads all tokens of a page from left to right (`tokens`) and applies them until the nodes
run out (`applyAll`).
-/

namespace Orion.Aster

/-! ## Reading -/

theorem length_dropWhile_le (f : UInt8 → Bool) (p : List UInt8) :
    (p.dropWhile f).length ≤ p.length :=
  (List.dropWhile_sublist f).length_le

theorem length_afterGt_le (p : List UInt8) : (afterGt p).length ≤ p.length := by
  have h := length_dropWhile_le (· ≠ 62) p
  rw [afterGt, List.length_drop]
  omega

theorem length_closep_le (e : List UInt8) : ∀ p : List UInt8, (closep p e).length ≤ p.length
  | [] => le_rfl
  | c :: p => by
    have h := length_closep_le e p
    rw [closep]
    split
    · exact le_rfl
    · rw [List.length_cons]
      omega

theorem length_afterComment_le : ∀ p : List UInt8, (afterComment p).length ≤ p.length
  | [] => le_rfl
  | c :: p => by
    have h := length_afterComment_le p
    rw [afterComment]
    split
    · rw [List.length_drop, List.length_cons]
      omega
    · rw [List.length_cons]
      omega

theorem length_openToken_le (t : Tag) (p : List UInt8) : (openToken t p).2.length ≤ p.length := by
  have h := length_afterGt_le p
  unfold openToken
  simp only
  split
  · exact (length_afterGt_le _).trans ((length_closep_le _ _).trans h)
  · split
    · exact (length_afterGt_le _).trans ((length_closep_le _ _).trans h)
    · exact h

theorem length_tagToken_le (p : List UInt8) : (tagToken p).2.length ≤ p.length := by
  have hname : ∀ q : List UInt8, q.length ≤ p.length →
      ((q.dropWhile sp).dropWhile tagNameChar).length ≤ p.length :=
    fun q hq => (length_dropWhile_le _ _).trans ((length_dropWhile_le _ _).trans hq)
  unfold tagToken
  simp only
  split
  · refine (length_afterGt_le _).trans (hname _ ?_)
    rw [List.length_drop]
    omega
  · exact (length_openToken_le _ _).trans (hname _ le_rfl)

/-- A comment begins with an exclamation mark. -/
theorem ci_comment_ne {d : UInt8} (hd : d ≠ 33) (s : List UInt8) :
    ci (60 :: d :: s) (ascii "<!--") = false := by
  have h := startsCi_head_ne (d := 33) (by decide) hd s (ascii "--")
  unfold startsCi at h
  show (60 == 60 && _) = false
  exact h

/-- Every token takes a character at least. -/
theorem nextToken_length_lt {p : List UInt8} (hne : p ≠ []) :
    (nextToken p).2.length < p.length := by
  obtain ⟨c, p, rfl⟩ := List.exists_cons_of_ne_nil hne
  unfold nextToken
  split
  · next hc =>
    have hc' : c ≠ 60 := by simpa using hc
    have h := length_dropWhile_le (· ≠ 60) p
    rw [List.dropWhile_cons, if_pos (by simpa using hc'), List.length_cons]
    exact Nat.lt_succ_of_le h
  · next hc =>
    have hc' : c = 60 := by simpa using hc
    subst hc'
    split
    · have h := length_afterComment_le (p.drop 3)
      simp only [List.drop_succ_cons, List.length_cons]
      rw [List.length_drop] at h
      omega
    · split
      · have h := length_afterGt_le p
        have hskip : afterGt (60 :: p) = afterGt p := rfl
        simp only [hskip, List.length_cons]
        omega
      · have h := length_tagToken_le p
        simp only [List.drop_succ_cons, List.drop_zero, List.length_cons]
        omega

/-- The tokens of a text, at most `fuel` of them. -/
def tokenize : ℕ → List UInt8 → List Token
  | 0, _ => []
  | fuel + 1, p => if p = [] then [] else (nextToken p).1 :: tokenize fuel (nextToken p).2

/-- All tokens of a text. -/
def tokens (p : List UInt8) : List Token := tokenize p.length p

theorem tokenize_eq : ∀ {fuel fuel' : ℕ} {p : List UInt8}, p.length ≤ fuel → p.length ≤ fuel' →
    tokenize fuel p = tokenize fuel' p := by
  intro fuel
  induction fuel with
  | zero =>
    intro fuel' p h _
    obtain rfl : p = [] := List.length_eq_zero_iff.mp (by omega)
    cases fuel' <;> rfl
  | succ fuel ih =>
    intro fuel' p h h'
    by_cases hp : p = []
    · subst hp
      cases fuel' <;> rfl
    · have hlt := nextToken_length_lt hp
      have hpos := List.length_pos_of_ne_nil hp
      obtain ⟨fuel', rfl⟩ : ∃ k, fuel' = k + 1 := ⟨fuel' - 1, by omega⟩
      rw [tokenize, tokenize, if_neg hp, if_neg hp, @ih fuel' _ (by omega) (by omega)]

@[simp] theorem tokens_nil : tokens [] = [] := rfl

theorem tokens_cons {p : List UInt8} (hne : p ≠ []) :
    tokens p = (nextToken p).1 :: tokens (nextToken p).2 := by
  have hlt := nextToken_length_lt hne
  obtain ⟨k, hk⟩ : ∃ k, p.length = k + 1 := ⟨p.length - 1, by omega⟩
  rw [tokens, hk, tokenize, if_neg hne, tokenize_eq (by omega) le_rfl]
  rfl

/-! ## Applying -/

/-- Apply tokens until the nodes run out. -/
def applyAll : ParseState → List Token → ParseState
  | s, [] => s
  | s, t :: ts => if s.doc.nodes.length ≥ asterMaxNodes then s else applyAll (applyToken s t) ts

theorem parseLoop_eq_applyAll : ∀ (fuel : ℕ) (p : List UInt8) (s : ParseState),
    parseLoop fuel p s = applyAll s (tokenize fuel p) := by
  intro fuel
  induction fuel with
  | zero => exact fun _ _ => rfl
  | succ fuel ih =>
    intro p s
    rw [parseLoop, tokenize]
    by_cases hp : p = []
    · rw [if_pos (.inl hp), if_pos hp]
      rfl
    · rw [if_neg hp, applyAll]
      by_cases hfull : s.doc.nodes.length ≥ asterMaxNodes
      · rw [if_pos (.inr hfull), if_pos hfull]
      · rw [if_neg (not_or.mpr ⟨hp, hfull⟩), if_neg hfull, ih]

theorem applyAll_full {s : ParseState} (h : s.doc.nodes.length ≥ asterMaxNodes) (ts : List Token) :
    applyAll s ts = s := by
  cases ts with
  | nil => rfl
  | cons t ts => rw [applyAll, if_pos h]

theorem applyAll_append (ts ts' : List Token) : ∀ s : ParseState,
    applyAll s (ts ++ ts') = applyAll (applyAll s ts) ts' := by
  induction ts with
  | nil => exact fun _ => rfl
  | cons t ts ih =>
    intro s
    rw [List.cons_append, applyAll, applyAll]
    split
    · next hfull => rw [applyAll_full hfull]
    · exact ih _

end Orion.Aster
