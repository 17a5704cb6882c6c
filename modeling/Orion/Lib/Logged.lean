import Mathlib.Data.List.Basic

/-!
# Runs with a log

A run goes from one state to another by events, which are written to a log in order, and by silent
moves.  What the events do to an observation of the state, and the silent moves leave alone, is
computed from the log (`Logged.observe`).
-/

namespace Orion.Lib

variable {α ε ω : Type*}

/-- The runs from a state with the events on the way. -/
inductive Logged (event : ε → α → α → Prop) (silent : α → α → Prop) (a : α) : List ε → α → Prop
  | start : Logged event silent a [] a
  | event {log : List ε} {b c : α} (x : ε) (h : Logged event silent a log b) (hx : event x b c) :
      Logged event silent a (log ++ [x]) c
  | silent {log : List ε} {b c : α} (h : Logged event silent a log b) (hs : silent b c) :
      Logged event silent a log c

namespace Logged

variable {event : ε → α → α → Prop} {silent : α → α → Prop} {a b c : α} {log log' : List ε}

theorem trans (h : Logged event silent a log b) (h' : Logged event silent b log' c) :
    Logged event silent a (log ++ log') c := by
  induction h' with
  | start =>
    rw [List.append_nil]
    exact h
  | event x _ hx ih =>
    rw [← List.append_assoc]
    exact .event x ih hx
  | silent _ hs ih => exact .silent ih hs

theorem of_silent (h : silent a b) : Logged event silent a [] b := .silent .start h

theorem of_event {x : ε} (h : event x a b) : Logged event silent a [x] b :=
  .event x .start h

/-- What every step keeps, every run keeps. -/
theorem invariant {I : α → Prop} (hevent : ∀ x b c, I b → event x b c → I c)
    (hsilent : ∀ b c, I b → silent b c → I c) (h : Logged event silent a log b) (ha : I a) : I b := by
  induction h with
  | start => exact ha
  | event x _ hx ih => exact hevent x _ _ ih hx
  | silent _ hs ih => exact hsilent _ _ ih hs

/-- **An observation of the final state** is computed from the log. -/
theorem observe {I : α → Prop} {f : α → ω} {update : ω → ε → ω}
    (hevent : ∀ x b c, I b → event x b c → I c ∧ f c = update (f b) x)
    (hsilent : ∀ b c, I b → silent b c → I c ∧ f c = f b) (h : Logged event silent a log b)
    (ha : I a) : I b ∧ f b = log.foldl update (f a) := by
  induction h with
  | start => exact ⟨ha, rfl⟩
  | event x _ hx ih =>
    obtain ⟨hI, hf⟩ := ih
    obtain ⟨hI', hf'⟩ := hevent x _ _ hI hx
    refine ⟨hI', ?_⟩
    rw [hf', hf, List.foldl_append]
    rfl
  | silent _ hs ih =>
    obtain ⟨hI, hf⟩ := ih
    obtain ⟨hI', hf'⟩ := hsilent _ _ hI hs
    exact ⟨hI', hf'.trans hf⟩

end Logged

end Orion.Lib
