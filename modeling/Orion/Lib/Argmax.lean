import Mathlib.Data.List.MinMax
import Mathlib.Data.Prod.Lex

/-!
# The last of the greatest

A scan that keeps the best element so far, and takes a new one that is as good, ends with the last
element of greatest rank (`lastMax`).  Its rank and its index are the lexicographically greatest pair
(`lastMax_filter_index`), and exchanging two neighbours of different ranks changes nothing
(`lastMax_swap`).
-/

namespace Orion.Lib

variable {α β : Type*} [LinearOrder β] {f : α → β} {l : List α} {a : α}

/-- The last element among those of the greatest rank. -/
def lastMax (f : α → β) (l : List α) : Option α := l.reverse.argmax f

/-- One more element: it is taken unless the one so far is better. -/
def lastMaxStep (f : α → β) (o : Option α) (a : α) : Option α :=
  match o with
  | none => some a
  | some c => if f c ≤ f a then some a else some c

@[simp] theorem lastMax_nil : lastMax f [] = none := rfl

theorem lastMax_concat : lastMax f (l ++ [a]) = lastMaxStep f (lastMax f l) a := by
  rw [lastMax, List.reverse_append, List.reverse_singleton, List.singleton_append, List.argmax_cons]
  show _ = lastMaxStep f (l.reverse.argmax f) a
  cases l.reverse.argmax f with
  | none => rfl
  | some c =>
    simp only [lastMaxStep]
    split
    · next h => rw [if_neg (not_le.mpr h)]
    · next h => rw [if_pos (not_lt.mp h)]

theorem lastMax_eq_none : lastMax f l = none ↔ l = [] := by
  rw [lastMax, List.argmax_eq_none, List.reverse_eq_nil_iff]

theorem lastMax_append (l' : List α) : lastMax f (l ++ l') = l'.foldl (lastMaxStep f) (lastMax f l) := by
  induction l' using List.reverseRecOn with
  | nil => rw [List.append_nil, List.foldl_nil]
  | append_singleton l' a ih => rw [← List.append_assoc, lastMax_concat, ih, List.foldl_append,
      List.foldl_cons, List.foldl_nil]

/-- Among elements of one rank the last wins. -/
theorem lastMax_of_const {b : β} (h : ∀ a ∈ l, f a = b) : lastMax f l = l.getLast? := by
  induction l using List.reverseRecOn with
  | nil => rfl
  | append_singleton l a ih =>
    rw [lastMax_concat, ih fun a ha => h a (by simp [ha]), List.getLast?_concat]
    cases hl : l.getLast? with
    | none => rfl
    | some c =>
      have hc := h c (by simp [List.mem_of_getLast? hl])
      have ha := h a (by simp)
      show (if f c ≤ f a then some a else some c) = some a
      rw [if_pos (by rw [hc, ha])]

/-- **Neighbours of different ranks may be exchanged.** -/
theorem lastMax_swap {x y : α} (h : f x ≠ f y) (l l' : List α) :
    lastMax f (l ++ x :: y :: l') = lastMax f (l ++ y :: x :: l') := by
  have hstep : lastMaxStep f (lastMaxStep f (lastMax f l) x) y =
      lastMaxStep f (lastMaxStep f (lastMax f l) y) x := by
    cases lastMax f l with
    | none =>
      rcases lt_or_gt_of_ne h with hlt | hgt
      · simp [lastMaxStep, hlt.le, not_le.mpr hlt]
      · simp [lastMaxStep, hgt.le, not_le.mpr hgt]
    | some c => grind [lastMaxStep]
  rw [lastMax_append, lastMax_append, List.foldl_cons, List.foldl_cons, List.foldl_cons,
    List.foldl_cons, hstep]

theorem lastMax_filter_swap {x y : α} (h : f x ≠ f y) (p : α → Bool) (l l' : List α) :
    lastMax f ((l ++ x :: y :: l').filter p) = lastMax f ((l ++ y :: x :: l').filter p) := by
  rw [List.filter_append, List.filter_append]
  cases hx : p x with
  | false => simp only [List.filter_cons, hx, Bool.false_eq_true, if_false]
  | true =>
    cases hy : p y with
    | false => simp only [List.filter_cons, hx, hy, Bool.false_eq_true, if_false]
    | true =>
      simp only [List.filter_cons, hx, hy, if_true]
      exact lastMax_swap h _ _

/-- **The rank and the index of the last maximum** among the elements with a property are the greatest
pair. -/
theorem lastMax_filter_index {p : α → Bool} : ∀ {l : List α} {a : α},
    lastMax f (l.filter p) = some a → ∃ i : ℕ, l[i]? = some a ∧ p a = true ∧
      ∀ (j : ℕ) (b : α), l[j]? = some b → p b = true → toLex (f b, j) ≤ toLex (f a, i) := by
  intro l
  induction l using List.reverseRecOn with
  | nil =>
    intro a h
    cases h
  | append_singleton l x ih =>
    intro a h
    have hlast : (l ++ [x])[l.length]? = some x := by simp
    have hold : ∀ {j : ℕ} {b : α}, (l ++ [x])[j]? = some b → l[j]? = some b ∨ (j = l.length ∧ b = x) := by
      intro j b hj
      rcases Nat.lt_or_ge j l.length with hlt | hge
      · left
        rwa [List.getElem?_append_left hlt] at hj
      · have hlt := (List.getElem?_eq_some_iff.mp hj).1
        rw [List.length_append, List.length_singleton] at hlt
        obtain rfl : j = l.length := by omega
        exact .inr ⟨rfl, Option.some.inj (hj.symm.trans hlast)⟩
    have hkeep : ∀ {j : ℕ} {b : α}, l[j]? = some b → (l ++ [x])[j]? = some b := by
      intro j b hj
      rw [List.getElem?_append_left (List.getElem?_eq_some_iff.mp hj).1]
      exact hj
    by_cases hx : p x = true
    · rw [List.filter_append, List.filter_singleton, hx, cond_true, lastMax_concat] at h
      -- the last element beats everything of its rank, as its index is the greatest
      have hwins : (∀ b ∈ l, p b = true → f b ≤ f x) → ∀ (j : ℕ) (b : α), (l ++ [x])[j]? = some b →
          p b = true →
          toLex (f b, j) ≤ toLex (f x, l.length) := by
        intro hbest j b hj hb
        rw [Prod.Lex.toLex_le_toLex]
        rcases hold hj with hj' | ⟨rfl, rfl⟩
        · rcases (hbest b (List.mem_of_getElem? hj') hb).lt_or_eq with hlt | heq
          · exact .inl hlt
          · exact .inr ⟨heq, (List.getElem?_eq_some_iff.mp hj').1.le⟩
        · exact .inr ⟨rfl, le_rfl⟩
      cases hm : lastMax f (l.filter p) with
      | none =>
        rw [hm] at h
        obtain rfl : x = a := Option.some.inj h
        rw [lastMax_eq_none, List.filter_eq_nil_iff] at hm
        exact ⟨l.length, hlast, hx, hwins fun b hb hpb => absurd hpb (hm b hb)⟩
      | some c =>
        rw [hm, lastMaxStep] at h
        obtain ⟨i, hi, hpc, hbest⟩ := ih hm
        have hle : ∀ b ∈ l, p b = true → f b ≤ f c := by
          intro b hb hpb
          obtain ⟨j, hj⟩ := List.getElem?_of_mem hb
          rcases Prod.Lex.toLex_le_toLex.mp (hbest j b hj hpb) with hlt | ⟨heq, -⟩
          · exact hlt.le
          · exact heq.le
        split at h
        · next hcx =>
          obtain rfl : x = a := Option.some.inj h
          exact ⟨l.length, hlast, hx, hwins fun b hb hpb => (hle b hb hpb).trans hcx⟩
        · next hcx =>
          obtain rfl : c = a := Option.some.inj h
          refine ⟨i, hkeep hi, hpc, fun j b hj hb => ?_⟩
          rcases hold hj with hj' | ⟨rfl, rfl⟩
          · exact hbest j b hj' hb
          · exact Prod.Lex.toLex_le_toLex.mpr (.inl (not_le.mp hcx))
    · rw [List.filter_append, List.filter_singleton, Bool.eq_false_of_not_eq_true hx, cond_false,
        List.append_nil] at h
      obtain ⟨i, hi, hpa, hbest⟩ := ih h
      refine ⟨i, hkeep hi, hpa, fun j b hj hb => ?_⟩
      rcases hold hj with hj' | ⟨rfl, rfl⟩
      · exact hbest j b hj' hb
      · exact absurd hb hx

end Orion.Lib
