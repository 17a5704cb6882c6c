import Mathlib.Data.List.Range
import Mathlib.Tactic.Ring

/-!
# Computations that record what they read

A traced computation has a value and the list of addresses it read on the way, over any type of
addresses and any type of cells.  The value of a compound computation is computed from the values
of its parts, and its reads are the reads of its parts in order, so statements about values never
mention the trace and statements about the trace follow the structure of the program:

* `within_pure`, `within_bind`, `within_read`, `within_readSpan` — the rules for "every address
  read satisfies `P`"; branches are split by `within_ite`.

Byte buffers and the big-endian words of a byte memory are at the end.
-/

namespace Orion

universe u v

/-- A value and the addresses that were read to compute it. -/
structure Traced (ι : Type u) (α : Type v) where
  value : α
  reads : List ι

namespace Traced

variable {ι : Type u} {α β : Type v}

instance : Monad (Traced ι) where
  pure a := ⟨a, []⟩
  bind x f := ⟨(f x.value).value, x.reads ++ (f x.value).reads⟩

/-- Read one cell of a memory. -/
def read (mem : ι → α) (i : ι) : Traced ι α := ⟨mem i, [i]⟩

/-- Read `n` consecutive cells. -/
def readSpan (mem : ℕ → α) (i n : ℕ) : Traced ℕ (List α) :=
  ⟨(List.range n).map fun k => mem (i + k), (List.range n).map (i + ·)⟩

@[simp] theorem value_pure (a : α) : (pure a : Traced ι α).value = a := rfl

@[simp] theorem value_bind (x : Traced ι α) (f : α → Traced ι β) :
    (x >>= f).value = (f x.value).value := rfl

@[simp] theorem value_read (mem : ι → α) (i : ι) : (read mem i).value = mem i := rfl

@[simp] theorem value_readSpan (mem : ℕ → α) (i n : ℕ) :
    (readSpan mem i n).value = (List.range n).map fun k => mem (i + k) := rfl

/-- The value of a branch is the branch of the values. -/
@[simp] theorem value_ite (c : Prop) [Decidable c] (x y : Traced ι α) :
    (if c then x else y).value = if c then x.value else y.value := by
  split <;> rfl

/-- A computation that gives up under a condition has a result only if the condition fails. -/
theorem guard_some_iff {t : Traced ι α} {c : α → Prop} [DecidablePred c]
    {k : α → Traced ι (Option β)} {r : β} :
    (t >>= fun x => if c x then pure none else k x).value = some r ↔
      ¬ c t.value ∧ (k t.value).value = some r := by
  rw [value_bind, value_ite]
  split
  · next hc => simp [hc]
  · next hc => simp [hc]

theorem guard_some {t : Traced ι α} {c : α → Prop} [DecidablePred c]
    {k : α → Traced ι (Option β)} {r : β}
    (h : (t >>= fun x => if c x then pure none else k x).value = some r) :
    ¬ c t.value ∧ (k t.value).value = some r :=
  guard_some_iff.mp h

/-- Every address that was read satisfies `P`. -/
def Within (P : ι → Prop) (x : Traced ι α) : Prop := ∀ i ∈ x.reads, P i

@[simp] theorem within_pure (P : ι → Prop) (a : α) : Within P (pure a : Traced ι α) := by
  intro i hi
  exact absurd hi (List.not_mem_nil)

@[simp] theorem within_bind (P : ι → Prop) (x : Traced ι α) (f : α → Traced ι β) :
    Within P (x >>= f) ↔ Within P x ∧ Within P (f x.value) := by
  show (∀ i ∈ x.reads ++ (f x.value).reads, P i) ↔ _
  simp only [List.mem_append, or_imp, forall_and]
  rfl

@[simp] theorem within_read (P : ι → Prop) (mem : ι → α) (i : ι) :
    Within P (read mem i) ↔ P i := by
  simp [Within, read]

@[simp] theorem within_readSpan (P : ℕ → Prop) (mem : ℕ → α) (i n : ℕ) :
    Within P (readSpan mem i n) ↔ ∀ k < n, P (i + k) := by
  simp [Within, readSpan]

@[simp] theorem within_ite (P : ι → Prop) (c : Prop) [Decidable c] (x y : Traced ι α) :
    Within P (if c then x else y) ↔ (c → Within P x) ∧ (¬ c → Within P y) := by
  split <;> simp_all

end Traced

/-! ## Byte buffers and big-endian words -/

/-- The memory from the start of a buffer on, and the length of the buffer.  Memory goes on behind
the buffer: an address that is not below `len` can be read, and must not be. -/
structure Buffer where
  mem : ℕ → UInt8
  len : ℕ

/-- A buffer that holds a given byte string, with zeros behind it. -/
def Buffer.ofBytes (bytes : List UInt8) : Buffer := ⟨fun i => bytes.getD i 0, bytes.length⟩

open Traced

def get16 (mem : ℕ → UInt8) (p : ℕ) : Traced ℕ ℕ := do
  let a ← read mem p
  let b ← read mem (p + 1)
  pure (a.toNat * 256 + b.toNat)

def get32 (mem : ℕ → UInt8) (p : ℕ) : Traced ℕ ℕ := do
  let a ← read mem p
  let b ← read mem (p + 1)
  let c ← read mem (p + 2)
  let d ← read mem (p + 3)
  pure (a.toNat * 2 ^ 24 + b.toNat * 2 ^ 16 + c.toNat * 2 ^ 8 + d.toNat)

def put16 (v : ℕ) : List UInt8 := [UInt8.ofNat (v / 256), UInt8.ofNat v]

def put32 (v : ℕ) : List UInt8 :=
  [UInt8.ofNat (v / 2 ^ 24), UInt8.ofNat (v / 2 ^ 16), UInt8.ofNat (v / 2 ^ 8), UInt8.ofNat v]

@[simp] theorem value_get16 (mem : ℕ → UInt8) (p : ℕ) :
    (get16 mem p).value = (mem p).toNat * 256 + (mem (p + 1)).toNat := rfl

@[simp] theorem value_get32 (mem : ℕ → UInt8) (p : ℕ) :
    (get32 mem p).value = (mem p).toNat * 2 ^ 24 + (mem (p + 1)).toNat * 2 ^ 16 +
      (mem (p + 2)).toNat * 2 ^ 8 + (mem (p + 3)).toNat := rfl

theorem value_get16_lt (mem : ℕ → UInt8) (p : ℕ) : (get16 mem p).value < 2 ^ 16 := by
  have h1 := (mem p).toNat_lt
  have h2 := (mem (p + 1)).toNat_lt
  rw [value_get16]
  omega

/-- Reading back what `put16` writes. -/
theorem get16_of_put16 {mem : ℕ → UInt8} {p v : ℕ} (h : [mem p, mem (p + 1)] = put16 v)
    (hv : v < 2 ^ 16) : (get16 mem p).value = v := by
  simp only [put16, List.cons.injEq, and_true] at h
  rw [value_get16, h.1, h.2, UInt8.toNat_ofNat', UInt8.toNat_ofNat']
  omega

/-- Reading back what `put32` writes. -/
theorem get32_of_put32 {mem : ℕ → UInt8} {p v : ℕ}
    (h : [mem p, mem (p + 1), mem (p + 2), mem (p + 3)] = put32 v) (hv : v < 2 ^ 32) :
    (get32 mem p).value = v := by
  simp only [put32, List.cons.injEq, and_true] at h
  rw [value_get32, h.1, h.2.1, h.2.2.1, h.2.2.2]
  simp only [UInt8.toNat_ofNat']
  omega

@[simp] theorem within_get16 (P : ℕ → Prop) (mem : ℕ → UInt8) (p : ℕ) :
    Within P (get16 mem p) ↔ P p ∧ P (p + 1) := by
  simp [get16]

@[simp] theorem within_get32 (P : ℕ → Prop) (mem : ℕ → UInt8) (p : ℕ) :
    Within P (get32 mem p) ↔ P p ∧ P (p + 1) ∧ P (p + 2) ∧ P (p + 3) := by
  simp [get32]

end Orion
