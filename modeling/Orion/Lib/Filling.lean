import Mathlib.Data.List.Basic
import Mathlib.Logic.Function.Basic

/-!
# Filling

One value is written to many cells, one after the other.  What is left depends on the set of the cells
alone: not on their order, and not on how often one of them is written (`filling_congr`).
-/

namespace Orion.Lib

variable {ι κ α : Type*} [DecidableEq κ]

/-- A write that may be skipped. -/
def put (v : α) (m : κ → α) : Option κ → κ → α
  | none => m
  | some k => Function.update m k v

/-- The writes for a list of items, each at its cell. -/
def filling (cell : ι → Option κ) (v : α) (m : κ → α) (l : List ι) : κ → α :=
  l.foldl (fun m i => put v m (cell i)) m

theorem filling_cons (cell : ι → Option κ) (v : α) (m : κ → α) (i : ι) (l : List ι) :
    filling cell v m (i :: l) = filling cell v (put v m (cell i)) l := rfl

theorem put_of_ne (v : α) (m : κ → α) {c : Option κ} {k : κ} (h : c ≠ some k) : put v m c k = m k := by
  cases c with
  | none => rfl
  | some k' =>
    show Function.update m k' v k = m k
    exact Function.update_of_ne (fun heq => h (congrArg some heq.symm)) v m

/-- A cell that no item has is left alone. -/
theorem filling_of_not (cell : ι → Option κ) (v : α) (m : κ → α) {l : List ι} {k : κ}
    (h : ∀ i ∈ l, cell i ≠ some k) : filling cell v m l k = m k := by
  induction l generalizing m with
  | nil => rfl
  | cons i l ih =>
    rw [filling_cons, ih _ fun j hj => h j (List.mem_cons_of_mem i hj)]
    exact put_of_ne v m (h i List.mem_cons_self)

/-- A cell that some item has gets the value. -/
theorem filling_of_exists (cell : ι → Option κ) (v : α) (m : κ → α) {l : List ι} {k : κ}
    (h : ∃ i ∈ l, cell i = some k) : filling cell v m l k = v := by
  induction l generalizing m with
  | nil =>
    obtain ⟨i, hi, -⟩ := h
    cases hi
  | cons j l ih =>
    rw [filling_cons]
    by_cases hlater : ∃ i ∈ l, cell i = some k
    · exact ih _ hlater
    · obtain ⟨i, hi, hk⟩ := h
      have hhead : cell j = some k := by
        rcases List.mem_cons.mp hi with rfl | hi
        · exact hk
        · exact absurd ⟨i, hi, hk⟩ hlater
      rw [filling_of_not cell v _ fun i hi hk => hlater ⟨i, hi, hk⟩, hhead]
      exact Function.update_self k v m

/-- **Only the set of the cells counts.** -/
theorem filling_congr {ι' : Type*} {cell : ι → Option κ} {cell' : ι' → Option κ} {l : List ι} {l' : List ι'}
    (h : ∀ k, (∃ i ∈ l, cell i = some k) ↔ ∃ i ∈ l', cell' i = some k) (v : α) (m : κ → α) :
    filling cell v m l = filling cell' v m l' := by
  funext k
  by_cases hk : ∃ i ∈ l, cell i = some k
  · rw [filling_of_exists cell v m hk, filling_of_exists cell' v m ((h k).mp hk)]
  · have hk' : ¬ ∃ i ∈ l', cell' i = some k := fun hex => hk ((h k).mpr hex)
    rw [filling_of_not cell v m fun i hi heq => hk ⟨i, hi, heq⟩,
      filling_of_not cell' v m fun i hi heq => hk' ⟨i, hi, heq⟩]

theorem filling_map {ι' : Type*} (cell : ι → Option κ) (v : α) (m : κ → α) (f : ι' → ι) (l : List ι') :
    filling cell v m (l.map f) = filling (fun i => cell (f i)) v m l :=
  List.foldl_map

/-- A loop in a loop. -/
theorem filling_flatMap {ι' : Type*} (cell : ι → Option κ) (v : α) (m : κ → α) (f : ι' → List ι) (l : List ι') :
    filling cell v m (l.flatMap f) = l.foldl (fun m i => filling cell v m (f i)) m :=
  List.foldl_flatMap

/-! ## A value for each item -/

/-- The writes for a list of items, each of its own value. -/
def storing (cell : ι → Option κ) (v : ι → α) (m : κ → α) (l : List ι) : κ → α :=
  l.foldl (fun m i => put (v i) m (cell i)) m

theorem storing_cons (cell : ι → Option κ) (v : ι → α) (m : κ → α) (i : ι) (l : List ι) :
    storing cell v m (i :: l) = storing cell v (put (v i) m (cell i)) l := rfl

/-- A loop in a loop. -/
theorem storing_flatMap {ι' : Type*} (cell : ι → Option κ) (v : ι → α) (m : κ → α) (f : ι' → List ι)
    (l : List ι') :
    storing cell v m (l.flatMap f) = l.foldl (fun m i => storing cell v m (f i)) m :=
  List.foldl_flatMap

theorem storing_map {ι' : Type*} (cell : ι → Option κ) (v : ι → α) (m : κ → α) (f : ι' → ι) (l : List ι') :
    storing cell v m (l.map f) = storing (fun i => cell (f i)) (fun i => v (f i)) m l :=
  List.foldl_map

theorem storing_of_not (cell : ι → Option κ) (v : ι → α) (m : κ → α) {l : List ι} {k : κ}
    (h : ∀ i ∈ l, cell i ≠ some k) : storing cell v m l k = m k := by
  induction l generalizing m with
  | nil => rfl
  | cons i l ih =>
    rw [storing_cons, ih _ fun j hj => h j (List.mem_cons_of_mem i hj)]
    exact put_of_ne (v i) m (h i List.mem_cons_self)

/-- A cell whose items all have one value, and that has an item or the value already. -/
theorem storing_of_agree {cell : ι → Option κ} {v : ι → α} {m : κ → α} {l : List ι} {k : κ} {a : α}
    (hvalue : ∀ i ∈ l, cell i = some k → v i = a) (h : m k = a ∨ ∃ i ∈ l, cell i = some k) :
    storing cell v m l k = a := by
  induction l generalizing m with
  | nil =>
    obtain h | ⟨i, hi, -⟩ := h
    · exact h
    · cases hi
  | cons j l ih =>
    rw [storing_cons]
    refine ih (fun i hi => hvalue i (List.mem_cons_of_mem j hi)) ?_
    by_cases hj : cell j = some k
    · refine .inl ?_
      rw [hj, ← hvalue j List.mem_cons_self hj]
      exact Function.update_self k (v j) m
    · obtain h | ⟨i, hi, hk⟩ := h
      · exact .inl ((put_of_ne (v j) m hj).trans h)
      · obtain rfl | hi := List.mem_cons.mp hi
        · exact absurd hk hj
        · exact .inr ⟨i, hi, hk⟩

/-- **What was saved is put back**, whatever was written to the saved cells meanwhile. -/
theorem storing_back {cell : ι → Option κ} {v : ι → α} {m m' : κ → α} {l : List ι}
    (hsaved : ∀ i ∈ l, ∀ k, cell i = some k → v i = m k)
    (hothers : ∀ k, (∀ i ∈ l, cell i ≠ some k) → m' k = m k) : storing cell v m' l = m := by
  funext k
  by_cases hk : ∃ i ∈ l, cell i = some k
  · exact storing_of_agree (fun i hi hcell => hsaved i hi k hcell) (.inr hk)
  · have hnot : ∀ i ∈ l, cell i ≠ some k := fun i hi hcell => hk ⟨i, hi, hcell⟩
    rw [storing_of_not cell v m' hnot, hothers k hnot]

end Orion.Lib
