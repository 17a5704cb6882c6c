import Mathlib.Data.List.Range
import Mathlib.Data.Prod.Lex

/-!
# Loops that search

A loop that searches leaves its body with a result, by `break`, or for the next pass (`Pass`).  Its result is
the first hit that no `break` hides (`scan_first`), and the first hit of nested loops is the first in the
lexicographic order (`First.nested`).  A loop in a state monad whose body only reads (`Reads`) finds what
the loop without state finds (`Reads.scanM`).
-/

namespace Orion.Lib

universe u v w

variable {ι : Type u} {κ : Type v} {β : Type w}

/-- How a pass of a loop ends. -/
inductive Pass (β : Type w) where
  | found (b : β)
  | leave
  | next

def Pass.ofOption : Option β → Pass β
  | some b => .found b
  | none => .next

/-- The result of a loop after this pass, where the passes behind it give `r`. -/
def Pass.andThen : Pass β → Option β → Option β
  | .found b, _ => some b
  | .leave, _ => none
  | .next, r => r

def scan (body : ι → Pass β) : List ι → Option β
  | [] => none
  | i :: is => (body i).andThen (scan body is)

section Scan

variable {body : ι → Pass β} {i : ι} {is : List ι}

theorem scan_found {b : β} (h : body i = .found b) : scan body (i :: is) = some b := by
  rw [scan, h]
  rfl

theorem scan_leave (h : body i = .leave) : scan body (i :: is) = none := by
  rw [scan, h]
  rfl

theorem scan_next (h : body i = .next) : scan body (i :: is) = scan body is := by
  rw [scan, h]
  rfl

end Scan

/-! ## The first hit -/

/-- `r` is what the first hit gives, and nothing when there is no hit. -/
structure First [LT ι] (hit : ι → β → Prop) (r : Option β) : Prop where
  some_iff : ∀ b, r = some b ↔ ∃ i, hit i b ∧ ∀ j < i, ∀ c, ¬ hit j c
  none_iff : r = none ↔ ∀ i b, ¬ hit i b

theorem First.congr [LT ι] {hit hit' : ι → β → Prop} {r : Option β} (h : First hit r)
    (hiff : ∀ i b, hit i b ↔ hit' i b) : First hit' r := by
  have hsame : hit = hit' := by
    funext i b
    exact propext (hiff i b)
  exact hsame ▸ h

/-- Hits behind other hits do not count. -/
theorem First.restrict [Preorder ι] {hit hit' : ι → β → Prop} {r : Option β} (h : First hit r)
    (hsub : ∀ i b, hit' i b → hit i b) (hcover : ∀ i b, hit i b → hit' i b ∨ ∃ j < i, ∃ c, hit' j c) :
    First hit' r := by
  constructor
  · intro b
    rw [h.some_iff]
    constructor
    · rintro ⟨i, hi, hbefore⟩
      refine ⟨i, ?_, fun j hj c hc => hbefore j hj c (hsub j c hc)⟩
      rcases hcover i b hi with hi' | ⟨j, hj, c, hc⟩
      · exact hi'
      · exact absurd (hsub j c hc) (hbefore j hj c)
    · rintro ⟨i, hi, hbefore⟩
      refine ⟨i, hsub i b hi, ?_⟩
      intro j hj c hc
      rcases hcover j c hc with hc' | ⟨k, hk, d, hd⟩
      · exact hbefore j hj c hc'
      · exact hbefore k (lt_trans hk hj) d hd
  · rw [h.none_iff]
    constructor
    · intro hnone i b hi
      exact hnone i b (hsub i b hi)
    · intro hnone i b hi
      rcases hcover i b hi with hi' | ⟨j, -, c, hc⟩
      · exact hnone i b hi'
      · exact hnone j c hc

theorem First.map [LT ι] {γ : Type*} {hit : ι → β → Prop} {r : Option β} (h : First hit r) (g : β → γ) :
    First (fun i c => ∃ b, hit i b ∧ g b = c) (r.map g) := by
  constructor
  · intro c
    rw [Option.map_eq_some_iff]
    constructor
    · rintro ⟨b, hr, hb⟩
      obtain ⟨i, hi, hbefore⟩ := (h.some_iff b).mp hr
      exact ⟨i, ⟨b, hi, hb⟩, fun j hj d ⟨e, he, _⟩ => hbefore j hj e he⟩
    · rintro ⟨i, ⟨b, hi, hb⟩, hbefore⟩
      exact ⟨b, (h.some_iff b).mpr ⟨i, hi, fun j hj e he => hbefore j hj (g e) ⟨e, he, rfl⟩⟩, hb⟩
  · rw [Option.map_eq_none_iff, h.none_iff]
    constructor
    · rintro hnone i c ⟨b, hb, -⟩
      exact hnone i b hb
    · intro hnone i b hb
      exact hnone i (g b) ⟨b, hb, rfl⟩

variable [Preorder ι]

/-- A loop over what follows a place hits at that place or behind it. -/
theorem scan_first {l : List ι} (hl : l.Pairwise (· < ·)) (body : ι → Pass β) :
    First (fun i b => i ∈ l ∧ body i = .found b ∧ ∀ j ∈ l, j < i → body j ≠ .leave) (scan body l) := by
  induction l with
  | nil =>
    constructor
    · intro b
      constructor
      · intro h
        exact absurd h.symm (Option.some_ne_none b)
      · rintro ⟨i, ⟨hi, -⟩, -⟩
        exact absurd hi List.not_mem_nil
    · exact ⟨fun _ i b h => absurd h.1 List.not_mem_nil, fun _ => rfl⟩
  | cons a l ih =>
    obtain ⟨hlow, hsorted⟩ := List.pairwise_cons.mp hl
    have hfirst : ∀ j ∈ a :: l, ¬ j < a := by
      intro j hj hlt
      rcases List.mem_cons.mp hj with rfl | hj
      · exact lt_irrefl _ hlt
      · exact lt_asymm hlt (hlow j hj)
    cases ha : body a with
    | found c =>
      rw [scan_found ha]
      have hhit : a ∈ a :: l ∧ body a = .found c ∧ ∀ j ∈ a :: l, j < a → body j ≠ .leave :=
        ⟨List.mem_cons_self, ha, fun j hj hlt => absurd hlt (hfirst j hj)⟩
      constructor
      · intro b
        constructor
        · intro h
          obtain rfl : c = b := Option.some.inj h
          exact ⟨a, hhit, fun j hlt d hj => hfirst j hj.1 hlt⟩
        · rintro ⟨i, ⟨hi, hfound, -⟩, hbefore⟩
          rcases List.mem_cons.mp hi with rfl | hi
          · rw [ha] at hfound
            exact congrArg some (Pass.found.inj hfound)
          · exact absurd hhit (hbefore a (hlow i hi) c)
      · exact ⟨fun h => absurd h (Option.some_ne_none c), fun h => absurd hhit (h a c)⟩
    | leave =>
      rw [scan_leave ha]
      have hnone : ∀ i b, ¬ (i ∈ a :: l ∧ body i = .found b ∧ ∀ j ∈ a :: l, j < i → body j ≠ .leave) := by
        rintro i b ⟨hi, hfound, hreach⟩
        rcases List.mem_cons.mp hi with rfl | hi
        · rw [ha] at hfound
          cases hfound
        · exact hreach a List.mem_cons_self (hlow i hi) ha
      constructor
      · intro b
        exact ⟨fun h => absurd h.symm (Option.some_ne_none b), fun ⟨i, hi, _⟩ => absurd hi (hnone i b)⟩
      · exact ⟨fun _ => hnone, fun _ => rfl⟩
    | next =>
      rw [scan_next ha]
      refine (ih hsorted).congr ?_
      intro i b
      constructor
      · rintro ⟨hi, hfound, hreach⟩
        refine ⟨List.mem_cons_of_mem a hi, hfound, ?_⟩
        intro j hj hlt
        rcases List.mem_cons.mp hj with rfl | hj
        · rw [ha]
          intro h
          cases h
        · exact hreach j hj hlt
      · rintro ⟨hi, hfound, hreach⟩
        rcases List.mem_cons.mp hi with rfl | hi
        · rw [ha] at hfound
          cases hfound
        · exact ⟨hi, hfound, fun j hj hlt => hreach j (List.mem_cons_of_mem a hj) hlt⟩

theorem Pass.ofOption_eq_found_iff {r : Option β} {b : β} : Pass.ofOption r = .found b ↔ r = some b := by
  cases r with
  | none =>
    constructor
    · intro h
      cases h
    · intro h
      cases h
  | some c => exact ⟨fun h => congrArg some (Pass.found.inj h), fun h => congrArg _ (Option.some.inj h)⟩

theorem Pass.ofOption_ne_leave (r : Option β) : Pass.ofOption r ≠ .leave := by
  intro h
  cases r <;> cases h

/-- **Nested loops** find the first hit in the lexicographic order. -/
theorem First.nested [LT κ] {l : List ι} (hl : l.Pairwise (· < ·)) {hit : ι → κ → β → Prop}
    {r : ι → Option β} (h : ∀ i ∈ l, First (hit i) (r i)) :
    First (fun (p : ι ×ₗ κ) b => (ofLex p).1 ∈ l ∧ hit (ofLex p).1 (ofLex p).2 b)
      (scan (fun i => Pass.ofOption (r i)) l) := by
  have houter := scan_first hl fun i => Pass.ofOption (r i)
  constructor
  · intro b
    rw [houter.some_iff]
    constructor
    · rintro ⟨i, ⟨hi, hfound, -⟩, hbefore⟩
      obtain ⟨k, hk, hinner⟩ := ((h i hi).some_iff b).mp (Pass.ofOption_eq_found_iff.mp hfound)
      refine ⟨toLex (i, k), ⟨hi, hk⟩, ?_⟩
      rintro q hq c ⟨hmem, hhit⟩
      rcases Prod.Lex.lt_iff.mp hq with hlt | ⟨heq, hlt⟩
      · -- an earlier pass of the outer loop would have returned
        cases hr : r (ofLex q).1 with
        | none => exact ((h _ hmem).none_iff.mp hr) _ _ hhit
        | some d =>
          exact hbefore _ hlt d ⟨hmem, Pass.ofOption_eq_found_iff.mpr hr, fun j _ _ => Pass.ofOption_ne_leave _⟩
      · change (ofLex q).1 = i at heq
        rw [heq] at hhit
        exact hinner _ hlt c hhit
    · rintro ⟨p, ⟨hp, hhit⟩, hbefore⟩
      refine ⟨(ofLex p).1, ⟨hp, Pass.ofOption_eq_found_iff.mpr ?_, fun j _ _ => Pass.ofOption_ne_leave _⟩, ?_⟩
      · refine ((h _ hp).some_iff b).mpr ⟨(ofLex p).2, hhit, ?_⟩
        intro k hk c hc
        exact hbefore (toLex ((ofLex p).1, k)) (Prod.Lex.lt_iff.mpr (.inr ⟨rfl, hk⟩)) c ⟨hp, hc⟩
      · rintro j hj c ⟨hmem, hfound, -⟩
        obtain ⟨k, hk, -⟩ := ((h j hmem).some_iff c).mp (Pass.ofOption_eq_found_iff.mp hfound)
        exact hbefore (toLex (j, k)) (Prod.Lex.lt_iff.mpr (.inl hj)) c ⟨hmem, hk⟩
  · rw [houter.none_iff]
    constructor
    · rintro hnone p b ⟨hp, hhit⟩
      cases hr : r (ofLex p).1 with
      | none => exact ((h _ hp).none_iff.mp hr) _ _ hhit
      | some d =>
        exact hnone _ d ⟨hp, Pass.ofOption_eq_found_iff.mpr hr, fun j _ _ => Pass.ofOption_ne_leave _⟩
    · rintro hnone i b ⟨hi, hfound, -⟩
      obtain ⟨k, hk, -⟩ := ((h i hi).some_iff b).mp (Pass.ofOption_eq_found_iff.mp hfound)
      exact hnone (toLex (i, k)) b ⟨hi, hk⟩

/-! ## Loops that only read -/

section Reads

variable {σ τ α γ : Type}

def scanM {ι β : Type} (body : ι → StateM σ (Pass β)) : List ι → StateM σ (Option β)
  | [] => pure none
  | i :: is => do
    match ← body i with
    | .found b => pure (some b)
    | .leave => pure none
    | .next => scanM body is

/-- The computation `x` leaves what `view` shows, and its result depends on nothing else. -/
structure Reads (view : σ → τ) (x : StateM σ α) (r : τ → α) : Prop where
  result : ∀ s, (x.run s).run.1 = r (view s)
  keeps : ∀ s, view (x.run s).run.2 = view s

variable {view : σ → τ}

theorem Reads.pure (a : α) : Reads view (Pure.pure a) fun _ => a := ⟨fun _ => rfl, fun _ => rfl⟩

theorem Reads.bind {x : StateM σ α} {r : τ → α} (hx : Reads view x r) {f : α → StateM σ γ} {q : α → τ → γ}
    (hf : ∀ a, Reads view (f a) (q a)) : Reads view (x >>= f) fun t => q (r t) t := by
  constructor
  · intro s
    have hnext := (hf (x.run s).run.1).result (x.run s).run.2
    rw [hx.keeps s, hx.result s] at hnext
    rw [← hnext, ← hx.result s]
    rfl
  · intro s
    have hnext := (hf (x.run s).run.1).keeps (x.run s).run.2
    rw [hx.keeps s] at hnext
    exact hnext

/-- What follows a computation that reads runs with its result, and with the same view. -/
theorem Reads.andThen {x : StateM σ α} {r : τ → α} (hx : Reads view x r) (f : α → StateM σ γ) (s : σ) :
    ∃ s', view s' = view s ∧ ((x >>= f).run s).run = ((f (r (view s))).run s').run := by
  refine ⟨(x.run s).run.2, hx.keeps s, ?_⟩
  rw [← hx.result s]
  rfl

theorem Reads.map {x : StateM σ α} {r : τ → α} (hx : Reads view x r) (g : α → γ) :
    Reads view (g <$> x) fun t => g (r t) :=
  ⟨fun s => congrArg g (hx.result s), hx.keeps⟩

theorem Reads.ite {c : Prop} [Decidable c] {x y : StateM σ α} {r q : τ → α} (hx : Reads view x r)
    (hy : Reads view y q) : Reads view (if c then x else y) fun t => if c then r t else q t := by
  by_cases h : c
  · simpa only [if_pos h] using hx
  · simpa only [if_neg h] using hy

/-- **A loop whose body only reads** finds what the loop without state finds. -/
theorem Reads.scanM {ι β : Type} {body : ι → StateM σ (Pass β)} {pass : τ → ι → Pass β}
    (h : ∀ i, Reads view (body i) fun t => pass t i) (l : List ι) :
    Reads view (scanM body l) fun t => scan (pass t) l := by
  induction l with
  | nil => exact .pure none
  | cons i is ih =>
    refine (h i).bind (q := fun p t => p.andThen (scan (pass t) is)) ?_
    intro p
    cases p with
    | found b => exact .pure (some b)
    | leave => exact .pure none
    | next => exact ih

end Reads

end Orion.Lib
