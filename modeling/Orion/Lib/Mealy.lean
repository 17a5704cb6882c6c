import Mathlib.Data.List.Pairwise

/-!
# Machines with outputs

A machine takes commands; a command changes its state and may put something out (`Mealy`).  A run of a
list of commands is the state behind the last one (`run`) and everything put out on the way (`outputs`);
both follow the list when it is cut (`run_append`, `outputs_append`).  What holds of all outputs is shown
from an invariant of the state (`run_inv`); how two outputs are related, from what the first one leaves
behind in the state (`outputs_pairwise`).  Where no command puts out more than one thing, the first outputs
are found, one by one and in pairs, by the commands that stand before them (`mem_take_outputs`,
`pairwise_take_outputs`).
-/

namespace Orion.Lib

structure Mealy (σ ω ι : Type*) where
  step : ω → σ → σ
  out : ω → σ → List ι

namespace Mealy

variable {σ ω ι κ : Type*} (M : Mealy σ ω ι)

def run (os : List ω) (s : σ) : σ := os.foldl (fun s o => M.step o s) s

def outputs : List ω → σ → List ι
  | [], _ => []
  | o :: os, s => M.out o s ++ outputs os (M.step o s)

@[simp] theorem run_nil (s : σ) : M.run [] s = s := rfl

@[simp] theorem run_cons (o : ω) (os : List ω) (s : σ) : M.run (o :: os) s = M.run os (M.step o s) := rfl

theorem run_append (os os' : List ω) (s : σ) : M.run (os ++ os') s = M.run os' (M.run os s) :=
  List.foldl_append ..

@[simp] theorem outputs_nil (s : σ) : M.outputs [] s = [] := rfl

@[simp] theorem outputs_cons (o : ω) (os : List ω) (s : σ) :
    M.outputs (o :: os) s = M.out o s ++ M.outputs os (M.step o s) := rfl

theorem outputs_append (os os' : List ω) : ∀ s : σ,
    M.outputs (os ++ os') s = M.outputs os s ++ M.outputs os' (M.run os s) := by
  induction os with
  | nil => exact fun _ => rfl
  | cons o os ih =>
    intro s
    rw [List.cons_append, outputs_cons, outputs_cons, ih, List.append_assoc, run_cons]

variable {M} {I : σ → Prop}

/-- What every command preserves holds behind the run, and of all outputs what it gives for each. -/
theorem run_inv {P : ι → Prop} {os : List ω}
    (hstep : ∀ o ∈ os, ∀ s, I s → I (M.step o s) ∧ ∀ i ∈ M.out o s, P i) : ∀ {s : σ}, I s →
      I (M.run os s) ∧ ∀ i ∈ M.outputs os s, P i := by
  induction os with
  | nil => exact fun h => ⟨h, fun i hi => absurd hi List.not_mem_nil⟩
  | cons o os ih =>
    intro s hs
    obtain ⟨hnext, hout⟩ := hstep o List.mem_cons_self s hs
    obtain ⟨hrun, houts⟩ := ih (fun o' ho' => hstep o' (List.mem_cons_of_mem _ ho')) hnext
    refine ⟨hrun, fun i hi => ?_⟩
    rcases List.mem_append.mp hi with hi | hi
    · exact hout i hi
    · exact houts i hi

/-- Each output leaves a trace `A` in the state, which stays there, and which relates it to all later
outputs. -/
theorem outputs_pairwise {A : ι → σ → Prop} {R : ι → ι → Prop} {os : List ω}
    (hself : ∀ o ∈ os, ∀ s, I s → I (M.step o s) ∧ (M.out o s).Pairwise R ∧ ∀ i ∈ M.out o s, A i (M.step o s))
    (hkeep : ∀ o ∈ os, ∀ s, I s → ∀ i, A i s → A i (M.step o s) ∧ ∀ j ∈ M.out o s, R i j) :
    ∀ {s : σ}, I s →
      (M.outputs os s).Pairwise R ∧ (∀ i ∈ M.outputs os s, A i (M.run os s)) ∧
        ∀ i, A i s → A i (M.run os s) ∧ ∀ j ∈ M.outputs os s, R i j := by
  induction os with
  | nil =>
    intro s hs
    exact ⟨List.Pairwise.nil, fun i hi => absurd hi List.not_mem_nil,
      fun i hi => ⟨hi, fun j hj => absurd hj List.not_mem_nil⟩⟩
  | cons o os ih =>
    intro s hs
    obtain ⟨hnext, hpair, htrace⟩ := hself o List.mem_cons_self s hs
    obtain ⟨hpairs, htraces, hlater⟩ := ih (fun o' ho' => hself o' (List.mem_cons_of_mem _ ho'))
      (fun o' ho' => hkeep o' (List.mem_cons_of_mem _ ho')) hnext
    have hold : ∀ i, A i s → A i (M.run (o :: os) s) ∧ ∀ j ∈ M.outputs (o :: os) s, R i j := by
      intro i hi
      obtain ⟨hi, hout⟩ := hkeep o List.mem_cons_self s hs i hi
      obtain ⟨hrun, hrel⟩ := hlater i hi
      refine ⟨hrun, fun j hj => ?_⟩
      rcases List.mem_append.mp hj with hj | hj
      · exact hout j hj
      · exact hrel j hj
    refine ⟨?_, ?_, hold⟩
    · rw [outputs_cons, List.pairwise_append]
      exact ⟨hpair, hpairs, fun i hi j hj => (hlater i (htrace i hi)).2 j hj⟩
    · intro i hi
      rcases List.mem_append.mp hi with hi | hi
      · exact (hlater i (htrace i hi)).1
      · exact htraces i hi

/-! ## First outputs -/

/-- The first outputs of a run: of its first command, and of the rest. -/
theorem take_outputs_cons {o : ω} {os : List ω} {s : σ} {n : ℕ} (hn : (M.out o s).length ≤ n) :
    (M.outputs (o :: os) s).take n =
      M.out o s ++ (M.outputs os (M.step o s)).take (n - (M.out o s).length) := by
  rw [outputs_cons, List.take_append, List.take_of_length_le hn]

theorem outputs_pos {o : ω} {j : ι} {os : List ω} {s : σ} (hj : j ∈ M.out o (M.run os s)) :
    0 < (M.outputs (os ++ [o]) s).length := by
  rw [outputs_append, List.length_append, outputs_cons, List.length_append]
  have hpos := List.length_pos_of_mem hj
  omega

section

variable (hone : ∀ o s, (M.out o s).length ≤ 1)

include hone

theorem mem_take_outputs {j : ι} {os : List ω} : ∀ {s : σ} {n : ℕ},
    j ∈ (M.outputs os s).take n ↔ ∃ os₁ o os₂, os = os₁ ++ o :: os₂ ∧
      (M.outputs (os₁ ++ [o]) s).length ≤ n ∧ j ∈ M.out o (M.run os₁ s) := by
  induction os with
  | nil =>
    intro s n
    rw [outputs_nil, List.take_nil]
    exact ⟨fun hj => absurd hj List.not_mem_nil,
      fun ⟨_, _, _, hos, _⟩ => absurd hos.symm (List.append_ne_nil_of_right_ne_nil _ (List.cons_ne_nil _ _))⟩
  | cons o os ih =>
    intro s n
    rcases Nat.lt_or_ge n (M.out o s).length with hn | hn
    · -- There is no room for the output of `o`, so `n` is 0.
      have hzero : n = 0 := by
        have hlen := hone o s
        omega
      rw [hzero, List.take_zero]
      refine ⟨fun hj => absurd hj List.not_mem_nil, fun ⟨os₁, p, _, _, hlen, hj⟩ => ?_⟩
      have hpos := outputs_pos hj
      omega
    · rw [take_outputs_cons hn, List.mem_append, ih]
      constructor
      · rintro (hj | ⟨os₁, p, os₂, rfl, hlen, hj⟩)
        · exact ⟨[], o, os, rfl, by simpa using hn, hj⟩
        · refine ⟨o :: os₁, p, os₂, rfl, ?_, hj⟩
          rw [List.cons_append, outputs_cons, List.length_append]
          omega
      · rintro ⟨os₁, p, os₂, hos, hlen, hj⟩
        cases os₁ with
        | nil =>
          obtain ⟨rfl, rfl⟩ := List.cons.inj hos
          exact .inl hj
        | cons o' os₁ =>
          obtain ⟨rfl, rfl⟩ := List.cons.inj hos
          rw [List.cons_append, outputs_cons, List.length_append] at hlen
          exact .inr ⟨os₁, p, os₂, rfl, by omega, hj⟩

/-- How the first outputs are related, by the commands that they come from and those between these. -/
theorem pairwise_take_outputs {R : ι → ι → Prop} {os : List ω} : ∀ {s : σ} {n : ℕ},
    ((M.outputs os s).take n).Pairwise R ↔ ∀ os₁ o os₂ p os₃, os = os₁ ++ o :: (os₂ ++ p :: os₃) →
      (M.outputs (os₁ ++ o :: (os₂ ++ [p])) s).length ≤ n → ∀ i ∈ M.out o (M.run os₁ s),
        ∀ j ∈ M.out p (M.run os₂ (M.step o (M.run os₁ s))), R i j := by
  induction os with
  | nil =>
    intro s n
    rw [outputs_nil, List.take_nil]
    exact ⟨fun _ os₁ _ _ _ _ hos =>
      absurd hos.symm (List.append_ne_nil_of_right_ne_nil _ (List.cons_ne_nil _ _)),
      fun _ => List.Pairwise.nil⟩
  | cons o os ih =>
    intro s n
    rcases Nat.lt_or_ge n (M.out o s).length with hn | hn
    · have hzero : n = 0 := by
        have hlen := hone o s
        omega
      rw [hzero, List.take_zero]
      refine ⟨fun _ os₁ p os₂ q os₃ _ hlen i hi j hj => ?_, fun _ => List.Pairwise.nil⟩
      have hpos := outputs_pos hi
      rw [← List.singleton_append (l := os₂ ++ [q]), ← List.append_assoc, outputs_append,
        List.length_append] at hlen
      omega
    · have hself : (M.out o s).Pairwise R := by
        have hlen := hone o s
        rw [List.pairwise_iff_getElem]
        intro i j hi hj hij
        omega
      rw [take_outputs_cons hn, List.pairwise_append, ih]
      constructor
      · rintro ⟨-, hrest, hcross⟩ os₁ p os₂ q os₃ hos hlen i hi j hj
        cases os₁ with
        | nil =>
          obtain ⟨rfl, rfl⟩ := List.cons.inj hos
          rw [List.nil_append, outputs_cons, List.length_append] at hlen
          exact hcross i hi j ((mem_take_outputs hone).mpr ⟨os₂, q, os₃, rfl, by omega, hj⟩)
        | cons o' os₁ =>
          obtain ⟨rfl, rfl⟩ := List.cons.inj hos
          rw [List.cons_append, outputs_cons, List.length_append] at hlen
          exact hrest os₁ p os₂ q os₃ rfl (by omega) i hi j hj
      · intro hall
        refine ⟨hself, fun os₁ p os₂ q os₃ hos hlen i hi j hj => ?_, fun i hi j hj => ?_⟩
        · refine hall (o :: os₁) p os₂ q os₃ (by rw [hos]; rfl) ?_ i hi j hj
          rw [List.cons_append, outputs_cons, List.length_append]
          omega
        · obtain ⟨os₂, q, os₃, hos, hlen, hj⟩ := (mem_take_outputs hone).mp hj
          refine hall [] o os₂ q os₃ (by rw [hos]; rfl) ?_ i hi j hj
          rw [List.nil_append, outputs_cons, List.length_append]
          omega

end

end Mealy

end Orion.Lib
