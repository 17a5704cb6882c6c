import Orion.Aster.Layout
import Orion.Lib.Argmax

/-!
# The cascade (`rules`)

`rules` runs once over the rules of a document and keeps the best rule so far for the colour and for the
scale.  What it leaves is the last rule of the greatest specificity among those that match and set the
property (`winner`, `rules_eq`); so a rule that wins has the lexicographically greatest pair of
specificity and index, and neighbours of different specificities may be exchanged (`aster_cascade`).
-/

namespace Orion.Aster

open Orion.Lib

def setsColor (r : CssRule) : Bool := r.style.colorSet

def setsScale (r : CssRule) : Bool := r.style.scale ≠ 0

/-- The last rule of the greatest specificity among the matching ones with a property. -/
def best (d : Document) (n : Node) (sets : CssRule → Bool) (rs : List CssRule) : Option CssRule :=
  lastMax specof (rs.filter fun r => matchesRule d r n && sets r)

def winner (d : Document) (n : Node) (sets : CssRule → Bool) : Option CssRule := best d n sets d.css

/-- The colour and the scale that the rules give a node. -/
def ruleColor (d : Document) (n : Node) : Option ℕ := (winner d n setsColor).map (·.style.color)

def ruleScale (d : Document) (n : Node) : Option ℕ := (winner d n setsScale).map (·.style.scale)

/-- The flags of all matching rules, added to those of `st`. -/
def ruleFlags (d : Document) (n : Node) (rs : List CssRule) (flags : UInt8) : UInt8 :=
  (rs.filter (matchesRule d · n)).foldl (fun f r => f ||| r.style.flags) flags

/-! ## One pass -/

section

variable {d : Document} {n : Node} {sets : CssRule → Bool} {rs : List CssRule} {r : CssRule}

theorem best_concat (hm : matchesRule d r n = true) (hs : sets r = true) :
    best d n sets (rs ++ [r]) = lastMaxStep specof (best d n sets rs) r := by
  rw [best, List.filter_append, List.filter_singleton, hm, hs, Bool.true_and, cond_true, lastMax_concat]
  rfl

theorem best_skip (h : matchesRule d r n = false ∨ sets r = false) :
    best d n sets (rs ++ [r]) = best d n sets rs := by
  have hno : (matchesRule d r n && sets r) = false := by
    rcases h with h | h <;> simp [h]
  rw [best, List.filter_append, List.filter_singleton, hno, cond_false, List.append_nil]
  rfl

/-- The variables of the pass after the rules `rs`. -/
structure PassOk (d : Document) (n : Node) (st : Style) (rs : List CssRule) (c : Cascade) : Prop where
  flags : c.st.flags = ruleFlags d n rs st.flags
  scale : c.st.scale = ((best d n setsScale rs).map (·.style.scale)).getD st.scale
  color : c.st.color = ((best d n setsColor rs).map (·.style.color)).getD st.color
  colorSet : c.st.colorSet = ((best d n setsColor rs).map fun _ => true).getD st.colorSet
  ss : c.ss = ((best d n setsScale rs).map specof).getD 0
  cs : c.cs = ((best d n setsColor rs).map specof).getD 0
  so : c.so < rs.length
  co : c.co < rs.length

/-- What is known of the best rule after a matching one. -/
theorem best_step {α : Type*} (value : CssRule → α) (old : α) (hm : matchesRule d r n = true) :
    ((best d n sets (rs ++ [r])).map value).getD old =
      if sets r = true ∧ ((best d n sets rs).map specof).getD 0 ≤ specof r then value r
      else ((best d n sets rs).map value).getD old := by
  by_cases hs : sets r = true
  · rw [best_concat hm hs]
    cases best d n sets rs with
    | none => simp [lastMaxStep, hs]
    | some b =>
      simp only [lastMaxStep, hs, true_and, Option.map_some, Option.getD_some]
      split <;> rfl
  · rw [best_skip (.inr (by simpa using hs)), if_neg fun h => hs h.1]

/-- Rule `i` is taken by a scan whose best rule so far has specificity `spc` and index `o`. -/
def Takes (sets : CssRule → Bool) (spc : ℕ) (o : ℤ) (r : CssRule) (i : ℕ) : Prop :=
  sets r = true ∧ (specof r > spc ∨ (specof r = spc ∧ (i : ℤ) ≥ o))

instance (sets : CssRule → Bool) (spc : ℕ) (o : ℤ) (r : CssRule) (i : ℕ) :
    Decidable (Takes sets spc o r i) :=
  inferInstanceAs (Decidable (_ ∧ _))

/-- A rule that sets the property is taken unless the best so far is more specific, as its index is
greater. -/
theorem takes_iff {spc : ℕ} {o : ℤ} {i : ℕ} (ho : o < i) :
    Takes sets spc o r i ↔ sets r = true ∧ spc ≤ specof r := by
  refine and_congr_right fun _ => ?_
  constructor
  · rintro (h | ⟨h, -⟩)
    · exact h.le
    · exact h.ge
  · intro h
    rcases h.lt_or_eq with hlt | heq
    · exact .inl hlt
    · exact .inr ⟨heq.symm, ho.le⟩

/-- What a matching rule does. -/
theorem ruleStep_of_match {c : Cascade} {i : ℕ} (hm : matchesRule d r n = true) :
    ruleStep d n c r i =
      { st :=
          { flags := c.st.flags ||| r.style.flags
            scale := if Takes setsScale c.ss c.so r i then r.style.scale else c.st.scale
            colorSet := if Takes setsColor c.cs c.co r i then true else c.st.colorSet
            color := if Takes setsColor c.cs c.co r i then r.style.color else c.st.color }
        cs := if Takes setsColor c.cs c.co r i then specof r else c.cs
        ss := if Takes setsScale c.ss c.so r i then specof r else c.ss
        co := if Takes setsColor c.cs c.co r i then i else c.co
        so := if Takes setsScale c.ss c.so r i then i else c.so } := by
  have hscale : (r.style.scale ≠ 0 ∧ (specof r > c.ss ∨ (specof r = c.ss ∧ (i : ℤ) ≥ c.so))) ↔
      Takes setsScale c.ss c.so r i := by
    simp [Takes, setsScale]
  have hcolor : (r.style.colorSet = true ∧ (specof r > c.cs ∨ (specof r = c.cs ∧ (i : ℤ) ≥ c.co))) ↔
      Takes setsColor c.cs c.co r i := by
    simp [Takes, setsColor]
  unfold ruleStep
  rw [if_neg (by simp [hm])]
  by_cases hS : Takes setsScale c.ss c.so r i <;> by_cases hC : Takes setsColor c.cs c.co r i <;>
    simp only [hscale, hcolor, hS, hC, if_true, if_false]

/-- **One rule of the pass.** -/
theorem PassOk.step {st : Style} {c : Cascade} (h : PassOk d n st rs c) (r : CssRule) :
    PassOk d n st (rs ++ [r]) (ruleStep d n c r rs.length) := by
  have hlen : (rs ++ [r]).length = rs.length + 1 := by simp
  have hso := h.so
  have hco := h.co
  by_cases hm : matchesRule d r n = true
  · have hS := @takes_iff setsScale r c.ss c.so rs.length hso
    have hC := @takes_iff setsColor r c.cs c.co rs.length hco
    rw [ruleStep_of_match hm]
    simp only [hS, hC]
    constructor
    · simp only
      rw [ruleFlags, List.filter_append, List.filter_singleton, hm, cond_true, List.foldl_append, h.flags]
      rfl
    · simp only
      rw [best_step _ _ hm, ← h.ss, ← h.scale]
    · simp only
      rw [best_step _ _ hm, ← h.cs, ← h.color]
    · simp only
      rw [best_step (fun _ => true) _ hm, ← h.cs, ← h.colorSet]
    · simp only
      rw [best_step _ _ hm, ← h.ss]
    · simp only
      rw [best_step _ _ hm, ← h.cs]
    · simp only
      split <;> omega
    · simp only
      split <;> omega
  · have hskip : ruleStep d n c r rs.length = c := by
      rw [ruleStep, if_pos (by simpa using hm)]
    have hno : matchesRule d r n = false := by simpa using hm
    rw [hskip]
    refine ⟨?_, ?_, ?_, ?_, ?_, ?_, by omega, by omega⟩
    · rw [ruleFlags, List.filter_append, List.filter_singleton, hno, cond_false, List.append_nil]
      exact h.flags
    · rw [best_skip (.inl hno)]
      exact h.scale
    · rw [best_skip (.inl hno)]
      exact h.color
    · rw [best_skip (.inl hno)]
      exact h.colorSet
    · rw [best_skip (.inl hno)]
      exact h.ss
    · rw [best_skip (.inl hno)]
      exact h.cs

/-- **The whole pass.** -/
theorem passOk (d : Document) (n : Node) (st : Style) (rs : List CssRule) :
    PassOk d n st rs (rs.zipIdx.foldl (fun c r => ruleStep d n c r.1 r.2) ⟨st, 0, 0, -1, -1⟩) := by
  induction rs using List.reverseRecOn with
  | nil => exact ⟨rfl, rfl, rfl, rfl, rfl, rfl, by simp, by simp⟩
  | append_singleton rs r ih =>
    rw [List.zipIdx_append, List.foldl_append, Nat.zero_add]
    exact ih.step r

end

/-- **What the rules make of a style.** -/
theorem rules_eq (d : Document) (n : Node) (st : Style) : rules d n st =
    { flags := ruleFlags d n d.css st.flags
      scale := (ruleScale d n).getD st.scale
      colorSet := st.colorSet || (ruleColor d n).isSome
      color := (ruleColor d n).getD st.color } := by
  have h := passOk d n st d.css
  have hset : ((winner d n setsColor).map fun _ => true).getD st.colorSet =
      (st.colorSet || (ruleColor d n).isSome) := by
    rw [ruleColor]
    cases winner d n setsColor <;> simp
  calc rules d n st = ⟨(rules d n st).flags, (rules d n st).scale, (rules d n st).colorSet,
        (rules d n st).color⟩ := rfl
    _ = _ := by
      congr 1
      · exact h.flags
      · exact h.scale
      · exact h.colorSet.trans hset
      · exact h.color

/-! ## Who wins -/

/-- Rule `i` matches the node and sets the property, and no rule that does so too has a greater pair of
specificity and index. -/
structure Wins (d : Document) (n : Node) (sets : CssRule → Bool) (i : ℕ) (r : CssRule) : Prop where
  rule : d.css[i]? = some r
  matching : matchesRule d r n = true
  setting : sets r = true
  greatest : ∀ (j : ℕ) (r' : CssRule), d.css[j]? = some r' → matchesRule d r' n = true → sets r' = true →
    toLex (specof r', j) ≤ toLex (specof r, i)

theorem winner_wins {d : Document} {n : Node} {sets : CssRule → Bool} {r : CssRule}
    (h : winner d n sets = some r) : ∃ i, Wins d n sets i r := by
  obtain ⟨i, hi, hr, hbest⟩ := lastMax_filter_index h
  obtain ⟨hm, hs⟩ := (Bool.and_eq_true _ _).mp hr
  refine ⟨i, hi, hm, hs, fun j r' hj hm' hs' => hbest j r' hj ?_⟩
  rw [hm', hs', Bool.and_self]

theorem winner_eq_none {d : Document} {n : Node} {sets : CssRule → Bool} :
    winner d n sets = none ↔ ∀ r ∈ d.css, matchesRule d r n = true → sets r = false := by
  rw [winner, best, lastMax_eq_none, List.filter_eq_nil_iff]
  simp

/-- There is one winner at most. -/
theorem Wins.winner_eq {d : Document} {n : Node} {sets : CssRule → Bool} {i : ℕ} {r : CssRule}
    (h : Wins d n sets i r) : winner d n sets = some r := by
  cases hw : winner d n sets with
  | none =>
    have hno := winner_eq_none.mp hw r (List.mem_of_getElem? h.rule) h.matching
    rw [h.setting] at hno
    cases hno
  | some r' =>
    obtain ⟨i', h'⟩ := winner_wins hw
    have hle := h.greatest i' r' h'.rule h'.matching h'.setting
    have hge := h'.greatest i r h.rule h.matching h.setting
    have hi : i' = i := congrArg Prod.snd (toLex.injective (le_antisymm hle hge))
    rw [← h.rule, ← h'.rule, hi]

/-- The document with other rules. -/
def Document.withCss (d : Document) (css : List CssRule) : Document := { d with css := css }

/-- Flags are added in any order. -/
theorem ruleFlags_perm {d : Document} {n : Node} {rs rs' : List CssRule} (h : rs.Perm rs') (flags : UInt8) :
    ruleFlags d n rs flags = ruleFlags d n rs' flags := by
  refine (h.filter _).foldl_eq' (fun x _ y _ z => ?_) _
  rw [UInt8.or_assoc, UInt8.or_comm x.style.flags, ← UInt8.or_assoc]

/-- **Stylesheet cascade.**  The colour, and independently the scale, comes from the rule that wins, or is
the old one if no matching rule sets it; the flags of all matching rules are added; and neighbours of
different specificity may be exchanged. -/
theorem aster_cascade (d : Document) (n : Node) (st : Style) :
    ((∃ i r, Wins d n setsColor i r ∧ (rules d n st).color = r.style.color ∧
        (rules d n st).colorSet = true) ∨
      (∀ r ∈ d.css, matchesRule d r n = true → r.style.colorSet = false) ∧
        (rules d n st).color = st.color ∧ (rules d n st).colorSet = st.colorSet) ∧
    ((∃ i r, Wins d n setsScale i r ∧ (rules d n st).scale = r.style.scale) ∨
      (∀ r ∈ d.css, matchesRule d r n = true → r.style.scale = 0) ∧ (rules d n st).scale = st.scale) ∧
    (rules d n st).flags = (d.css.filter (matchesRule d · n)).foldl (fun f r => f ||| r.style.flags) st.flags ∧
    ∀ before x y after, d.css = before ++ x :: y :: after → specof x ≠ specof y →
      rules (d.withCss (before ++ y :: x :: after)) n st = rules d n st := by
  refine ⟨?_, ?_, ?_, fun before x y after hcss hspec => ?_⟩
  · rw [rules_eq, ruleColor]
    cases h : winner d n setsColor with
    | none => exact .inr ⟨winner_eq_none.mp h, rfl, by simp⟩
    | some r =>
      obtain ⟨i, hi⟩ := winner_wins h
      exact .inl ⟨i, r, hi, rfl, by simp⟩
  · rw [rules_eq, ruleScale]
    cases h : winner d n setsScale with
    | none =>
      refine .inr ⟨fun r hr hm => ?_, rfl⟩
      have hno := winner_eq_none.mp h r hr hm
      simpa [setsScale] using hno
    | some r =>
      obtain ⟨i, hi⟩ := winner_wins h
      exact .inl ⟨i, r, hi, rfl⟩
  · rw [rules_eq]
    rfl
  · have hwin : ∀ sets, winner (d.withCss (before ++ y :: x :: after)) n sets = winner d n sets := by
      intro sets
      rw [winner, winner, hcss]
      exact (lastMax_filter_swap hspec _ before after).symm
    have hperm : (before ++ y :: x :: after).Perm d.css := by
      rw [hcss]
      exact (List.Perm.swap x y after).append_left before
    rw [rules_eq, rules_eq, ruleScale, ruleScale, ruleColor, ruleColor, hwin, hwin]
    congr 1
    exact ruleFlags_perm hperm st.flags

end Orion.Aster
