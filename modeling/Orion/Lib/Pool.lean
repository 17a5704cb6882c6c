import Mathlib.Data.List.Nodup
import Mathlib.Data.List.TakeWhile
import Mathlib.Data.Finset.Card

/-!
# Pools that recycle before they scan

An allocator over an arbitrary item type with two sources: a stack of items that were given
back, and a list of items that were never reached.  Items the predicate `skip` marks are passed
over.  The third component, `held`, is not stored by such an allocator: it is the record of what
its caller has and has not given back, kept here so that ownership can be stated.

* `Ledger` — the invariant: no item is in two places, nothing leaves the universe, and every
  usable item of the universe is somewhere;
* `ledger_take`, `ledger_give` — both operations keep it;
* `take_spec` — what `take` hands out is usable, comes from the universe and was not held.
-/

namespace Orion

universe u

variable {α : Type u}

/-- The items of a pool, by where they are: with the caller, on the recycle stack, or not yet
reached. -/
structure Pool (α : Type u) where
  held : List α
  stack : List α
  fresh : List α

/-- All the items of a pool. -/
def Pool.items (p : Pool α) : List α := p.held ++ p.stack ++ p.fresh

/-- Take an item: the most recently returned one, or else the first item not skipped. -/
def Pool.take (skip : α → Bool) (p : Pool α) : Option α × Pool α :=
  match p.stack with
  | x :: rest => (some x, ⟨x :: p.held, rest, p.fresh⟩)
  | [] =>
    match p.fresh.dropWhile skip with
    | [] => (none, ⟨p.held, [], []⟩)
    | x :: rest => (some x, ⟨x :: p.held, [], rest⟩)

theorem Pool.take_of_dropWhile_nil {skip : α → Bool} {p : Pool α} (hs : p.stack = [])
    (hf : p.fresh.dropWhile skip = []) : p.take skip = (none, ⟨p.held, [], []⟩) := by
  simp only [Pool.take, hs, hf]

theorem Pool.take_of_dropWhile_cons {skip : α → Bool} {p : Pool α} {x : α} {rest : List α}
    (hs : p.stack = []) (hf : p.fresh.dropWhile skip = x :: rest) :
    p.take skip = (some x, ⟨x :: p.held, [], rest⟩) := by
  simp only [Pool.take, hs, hf]

/-- Give an item back. -/
def Pool.give [DecidableEq α] (x : α) (p : Pool α) : Pool α :=
  ⟨p.held.erase x, x :: p.stack, p.fresh⟩

/-- The invariant of a pool whose items come from `universe`. -/
structure Ledger (univ : List α) (skip : α → Bool) (p : Pool α) : Prop where
  nodup : p.items.Nodup
  subset : ∀ x ∈ p.items, x ∈ univ
  usable : ∀ x ∈ p.held ++ p.stack, skip x = false
  cover : ∀ x ∈ univ, skip x = false → x ∈ p.items

/-- Before the first operation everything is still to be reached. -/
theorem ledger_start {univ : List α} (skip : α → Bool) (h : univ.Nodup) :
    Ledger univ skip ⟨[], [], univ⟩ where
  nodup := by simpa [Pool.items] using h
  subset := by simp [Pool.items]
  usable := by simp
  cover := fun x hx _ => by simpa [Pool.items] using hx

/-- An item on the stack or not yet reached is not held. -/
theorem Ledger.not_held {univ : List α} {skip : α → Bool} {p : Pool α} (h : Ledger univ skip p)
    {x : α} (hx : x ∈ p.stack ++ p.fresh) : x ∉ p.held := by
  have hn := h.nodup
  rw [Pool.items, List.append_assoc] at hn
  intro hh
  exact (List.nodup_append.mp hn).2.2 x hh x hx rfl

/-- The items passed over by a scan are all skipped ones. -/
theorem skip_of_mem_of_not_mem_dropWhile (skip : α → Bool) (l : List α) (x : α)
    (hx : x ∈ l) (hn : x ∉ l.dropWhile skip) : skip x = true := by
  have hsplit := List.takeWhile_append_dropWhile (p := skip) (l := l)
  rw [← hsplit, List.mem_append] at hx
  exact List.mem_takeWhile_imp (hx.resolve_right hn)

/-- A pool that lost only skipped, never reached items keeps its ledger. -/
theorem Ledger.of_fresh {univ : List α} {skip : α → Bool} {p : Pool α} (h : Ledger univ skip p) :
    Ledger univ skip ⟨p.held, p.stack, p.fresh.dropWhile skip⟩ where
  nodup := by
    have hn := h.nodup
    rw [Pool.items] at hn ⊢
    exact hn.sublist ((List.Sublist.refl _).append (List.dropWhile_sublist _))
  subset := by
    intro x hx
    refine h.subset x ?_
    rw [Pool.items, List.mem_append] at hx ⊢
    exact hx.imp_right (fun hf => (List.dropWhile_sublist _).subset hf)
  usable := h.usable
  cover := by
    intro x hu hs
    have hx := h.cover x hu hs
    rw [Pool.items, List.mem_append] at hx ⊢
    refine hx.imp_right (fun hf => ?_)
    by_contra hn
    have := skip_of_mem_of_not_mem_dropWhile skip p.fresh x hf hn
    simp [hs] at this

/-- Moving items between the three places keeps the ledger, as long as what leaves the unreached
items is usable. -/
theorem Ledger.of_perm {univ : List α} {skip : α → Bool} {p q : Pool α} (h : Ledger univ skip p)
    (hp : q.items.Perm p.items) (hu : ∀ x ∈ q.held ++ q.stack, skip x = false) :
    Ledger univ skip q where
  nodup := hp.nodup_iff.mpr h.nodup
  subset := fun x hx => h.subset x (hp.mem_iff.mp hx)
  usable := hu
  cover := fun x hx hs => hp.mem_iff.mpr (h.cover x hx hs)

/-- **Taking keeps the ledger.** -/
theorem ledger_take {univ : List α} {skip : α → Bool} {p : Pool α} (h : Ledger univ skip p) :
    Ledger univ skip (p.take skip).2 := by
  obtain ⟨held, stack, fresh⟩ := p
  cases stack with
  | cons x rest =>
    refine h.of_perm ?_ ?_
    · simp only [Pool.take, Pool.items, List.append_assoc, List.cons_append]
      exact List.perm_middle.symm
    · intro y hy
      refine h.usable y ?_
      simp only [Pool.take, List.cons_append, List.mem_cons, List.mem_append] at hy ⊢
      tauto
  | nil =>
    have hd := h.of_fresh
    have hf : ∀ y ys, fresh.dropWhile skip = y :: ys → skip y = false := by
      intro y ys hy
      have := List.head?_dropWhile_not skip fresh
      simpa [hy] using this
    simp only [Pool.take]
    cases hfresh : fresh.dropWhile skip with
    | nil => simpa [hfresh] using hd
    | cons x rest =>
      simp only [hfresh] at hd
      refine hd.of_perm ?_ ?_
      · simp only [Pool.items, List.append_nil, List.cons_append]
        exact List.perm_middle.symm
      · intro y hy
        simp only [List.append_nil, List.mem_cons] at hy
        rcases hy with rfl | hy
        · exact hf _ _ hfresh
        · exact hd.usable y (by simpa using hy)

/-- **Giving a held item back keeps the ledger.** -/
theorem ledger_give [DecidableEq α] {univ : List α} {skip : α → Bool} {p : Pool α}
    (h : Ledger univ skip p) {x : α} (hx : x ∈ p.held) : Ledger univ skip (p.give x) := by
  have hperm : (p.held.erase x ++ x :: p.stack).Perm (p.held ++ p.stack) :=
    List.perm_middle.trans ((List.perm_cons_erase hx).symm.append_right p.stack)
  refine h.of_perm ?_ ?_
  · exact hperm.append_right p.fresh
  · intro y hy
    exact h.usable y (hperm.mem_iff.mp hy)

/-- **What `take` hands out** is a usable item of the universe that nobody held, and it is held
from then on. -/
theorem take_spec {univ : List α} {skip : α → Bool} {p : Pool α} (h : Ledger univ skip p)
    {x : α} (hx : (p.take skip).1 = some x) :
    x ∈ univ ∧ skip x = false ∧ x ∉ p.held ∧ (p.take skip).2.held = x :: p.held := by
  have hl := ledger_take h
  have hheld : (p.take skip).2.held = x :: p.held := by
    revert hx
    simp only [Pool.take]
    split
    · simp
    · split <;> simp
  have hmem : x ∈ (p.take skip).2.held := by rw [hheld]; exact List.mem_cons_self
  refine ⟨hl.subset x ?_, hl.usable x ?_, ?_, hheld⟩
  · simp [Pool.items, hmem]
  · simp [hmem]
  · have hn := hl.nodup
    rw [Pool.items, List.append_assoc, hheld] at hn
    exact (List.nodup_cons.mp (List.nodup_append.mp hn).1).1

/-- Nobody can hold more than the universe has. -/
theorem Ledger.held_length_le {univ : List α} {skip : α → Bool} {p : Pool α}
    (h : Ledger univ skip p) : p.held.length ≤ univ.length := by
  classical
  have hn : p.held.Nodup := by
    have := h.nodup
    rw [Pool.items, List.append_assoc] at this
    exact (List.nodup_append.mp this).1
  have hsub : p.held ⊆ univ := fun x hx => h.subset x (by simp [Pool.items, hx])
  exact (hn.subperm hsub).length_le

end Orion
