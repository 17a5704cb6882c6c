import Mathlib.Data.List.Basic
import Mathlib.Tactic.Ring

/-!
# Buffers written in place

`splice buf off blob` is the slice assignment `buf[off:off + len(blob)] = blob` of a buffer.  Reading
a splice is reading the blob inside of it and the buffer outside (`getD_splice`); writing a blob in
consecutive pieces is writing it at once (`splice_splice`, `foldl_splice_chunks`), and a buffer built
from disjoint fields holds each of them (`getD_layout`).
-/

namespace Orion.Lib

variable {α : Type*}

/-- Slice assignment; within the buffer it keeps the length. -/
def splice (buf : List α) (off : ℕ) (blob : List α) : List α :=
  buf.take off ++ blob ++ buf.drop (off + blob.length)

@[simp] theorem splice_nil (buf : List α) (off : ℕ) : splice buf off [] = buf := by
  simp [splice]

theorem length_splice {buf : List α} {off : ℕ} {blob : List α}
    (h : off + blob.length ≤ buf.length) : (splice buf off blob).length = buf.length := by
  simp only [splice, List.length_append, List.length_take, List.length_drop]
  omega

theorem getElem?_splice {buf : List α} {off : ℕ} {blob : List α} (h : off ≤ buf.length) (i : ℕ) :
    (splice buf off blob)[i]? =
      if off ≤ i ∧ i < off + blob.length then blob[i - off]? else buf[i]? := by
  have htake : (buf.take off).length = off := by simpa using h
  unfold splice
  by_cases hlow : i < off
  · rw [List.append_assoc, List.getElem?_append_left (by omega), List.getElem?_take_of_lt hlow,
      if_neg (by omega)]
  · by_cases hin : i < off + blob.length
    · rw [List.append_assoc, List.getElem?_append_right (by omega), htake,
        List.getElem?_append_left (by omega), if_pos (by omega)]
    · rw [List.getElem?_append_right (by simp only [List.length_append]; omega),
        List.getElem?_drop, if_neg (by omega)]
      congr 1
      simp only [List.length_append, htake]
      omega

/-- Reading inside the blob, and outside of it. -/
theorem getD_splice {buf : List α} {off : ℕ} {blob : List α} (h : off ≤ buf.length) (i : ℕ)
    (d : α) : (splice buf off blob).getD i d =
      if off ≤ i ∧ i < off + blob.length then blob.getD (i - off) d else buf.getD i d := by
  rw [List.getD_eq_getElem?_getD, getElem?_splice h]
  split <;> rw [List.getD_eq_getElem?_getD]

theorem getD_splice_in {buf : List α} {off : ℕ} {blob : List α} (h : off ≤ buf.length) {i : ℕ}
    (hi : i < blob.length) (d : α) : (splice buf off blob).getD (off + i) d = blob.getD i d := by
  rw [getD_splice h, if_pos (by omega), Nat.add_sub_cancel_left]

theorem getD_splice_out {buf : List α} {off : ℕ} {blob : List α} (h : off ≤ buf.length) {i : ℕ}
    (hi : i < off ∨ off + blob.length ≤ i) (d : α) :
    (splice buf off blob).getD i d = buf.getD i d := by
  rw [getD_splice h, if_neg (by omega)]

/-- Two consecutive blobs. -/
theorem splice_splice {buf : List α} {off : ℕ} {a b : List α}
    (h : off + a.length + b.length ≤ buf.length) :
    splice (splice buf off a) (off + a.length) b = splice buf off (a ++ b) := by
  have hlen : (splice buf off a).length = buf.length := length_splice (by omega)
  apply List.ext_getElem?
  intro i
  rw [getElem?_splice (by omega), getElem?_splice (by omega), getElem?_splice (by omega)]
  simp only [List.length_append]
  by_cases ha : off ≤ i ∧ i < off + a.length
  · rw [if_neg (by omega), if_pos ha, if_pos (by omega), List.getElem?_append_left (by omega)]
  · by_cases hb : off + a.length ≤ i ∧ i < off + a.length + b.length
    · rw [if_pos hb, if_pos (by omega), List.getElem?_append_right (by omega)]
      congr 1
      omega
    · rw [if_neg hb, if_neg ha, if_neg (by omega)]

/-- A copy from one buffer to another that goes on where it stopped. -/
theorem splice_copied {a b : List α} {m n : ℕ} (h : m + n ≤ a.length) :
    splice (a.take m ++ b.drop m) m ((a.drop m).take n) = a.take (m + n) ++ b.drop (m + n) := by
  have htake : (a.take m).length = m := by
    rw [List.length_take]
    omega
  have hblob : ((a.drop m).take n).length = n := by
    rw [List.length_take, List.length_drop]
    omega
  rw [splice, hblob, List.take_left' htake, ← List.drop_drop, List.drop_left' htake, List.drop_drop,
    List.take_add]

/-- What lies behind the blob. -/
theorem drop_splice {buf : List α} {off n : ℕ} {blob : List α} (h : off ≤ buf.length)
    (hn : off + blob.length ≤ n) : (splice buf off blob).drop n = buf.drop n := by
  apply List.ext_getElem?
  intro i
  rw [List.getElem?_drop, List.getElem?_drop, getElem?_splice h, if_neg (by omega)]

/-- Writing a blob in pieces of `size`, one after the other, is writing it at once. -/
theorem foldl_splice_chunks {buf : List α} {off size : ℕ} {blob : List α}
    (h : off + blob.length ≤ buf.length) :
    ∀ n, (n - 1) * size ≤ blob.length →
      (List.range n).foldl
        (fun buf i => splice buf (off + i * size) ((blob.drop (i * size)).take size)) buf
        = splice buf off (blob.take (n * size)) := by
  intro n
  induction n with
  | zero => simp
  | succ n ih =>
    intro hn
    simp only [Nat.add_sub_cancel] at hn
    have hprev : (n - 1) * size ≤ blob.length :=
      le_trans (Nat.mul_le_mul_right _ (Nat.sub_le n 1)) hn
    rw [List.range_succ, List.foldl_append, ih hprev]
    have htake : (blob.take (n * size)).length = n * size := by simpa using hn
    have hsplit : blob.take (n * size) ++ (blob.drop (n * size)).take size
        = blob.take ((n + 1) * size) := by
      rw [Nat.succ_mul, List.take_add]
    simp only [List.foldl_cons, List.foldl_nil]
    nth_rewrite 2 [← htake]
    rw [splice_splice, hsplit]
    rw [htake, List.length_take, List.length_drop]
    omega

/-! ## Assignments in a row -/

theorem length_foldl_set (start n : ℕ) (f : ℕ → α) (l : List α) :
    ((List.range n).foldl (fun l i => l.set (start + i) (f i)) l).length = l.length := by
  induction n with
  | zero => rfl
  | succ n ih =>
    rw [List.range_succ, List.foldl_append]
    simpa using ih

theorem getElem?_foldl_set_of_not_mem {start n c : ℕ} (f : ℕ → α) (l : List α)
    (hc : ¬ (start ≤ c ∧ c < start + n)) :
    ((List.range n).foldl (fun l i => l.set (start + i) (f i)) l)[c]? = l[c]? := by
  induction n with
  | zero => rfl
  | succ n ih =>
    rw [List.range_succ, List.foldl_append, List.foldl_cons, List.foldl_nil, List.getElem?_set_ne (by omega)]
    exact ih (by omega)

/-- A loop that assigns `n` entries in a row. -/
theorem getD_foldl_set {start n : ℕ} (f : ℕ → α) {l : List α} (h : start + n ≤ l.length) (c : ℕ)
    (d : α) : ((List.range n).foldl (fun l i => l.set (start + i) (f i)) l).getD c d =
      if start ≤ c ∧ c < start + n then f (c - start) else l.getD c d := by
  induction n with
  | zero =>
    rw [if_neg (by omega)]
    rfl
  | succ n ih =>
    have hlen := length_foldl_set start n f l
    specialize ih (by omega)
    rw [List.range_succ, List.foldl_append]
    simp only [List.foldl_cons, List.foldl_nil]
    generalize (List.range n).foldl (fun l i => l.set (start + i) (f i)) l = l' at hlen ih ⊢
    rw [List.getD_eq_getElem?_getD, List.getElem?_set]
    by_cases hc : start + n = c
    · subst hc
      rw [if_pos rfl, if_pos (show start + n < l'.length by omega),
        if_pos (show start ≤ start + n ∧ start + n < start + (n + 1) by omega)]
      simp
    · rw [if_neg hc, ← List.getD_eq_getElem?_getD, ih]
      by_cases hin : start ≤ c ∧ c < start + n
      · rw [if_pos hin, if_pos (show start ≤ c ∧ c < start + (n + 1) by omega)]
      · rw [if_neg hin, if_neg (show ¬(start ≤ c ∧ c < start + (n + 1)) by omega)]

/-! ## Fields -/

/-- Writes the fields one after the other. -/
def layout (buf : List α) (fields : List (ℕ × List α)) : List α :=
  fields.foldl (fun buf field => splice buf field.1 field.2) buf

/-- Two fields that share no position. -/
def Apart (f f' : ℕ × List α) : Prop := f.1 + f.2.length ≤ f'.1 ∨ f'.1 + f'.2.length ≤ f.1

instance (f f' : ℕ × List α) : Decidable (Apart f f') := by
  unfold Apart
  infer_instance

section

variable {buf : List α} {fields : List (ℕ × List α)}

theorem length_layout (hin : ∀ f ∈ fields, f.1 + f.2.length ≤ buf.length) :
    (layout buf fields).length = buf.length := by
  induction fields generalizing buf with
  | nil => rfl
  | cons f fields ih =>
    have hf := hin f (by simp)
    have hlen : (splice buf f.1 f.2).length = buf.length := length_splice hf
    rw [layout, List.foldl_cons, ← layout, ih, hlen]
    intro f' hf'
    rw [hlen]
    exact hin f' (by simp [hf'])

/-- Outside of all fields the buffer is as it was. -/
theorem getD_layout_out (hin : ∀ f ∈ fields, f.1 + f.2.length ≤ buf.length) {i : ℕ}
    (hout : ∀ f ∈ fields, i < f.1 ∨ f.1 + f.2.length ≤ i) (d : α) :
    (layout buf fields).getD i d = buf.getD i d := by
  induction fields generalizing buf with
  | nil => rfl
  | cons f fields ih =>
    have hf := hin f (by simp)
    have hlen : (splice buf f.1 f.2).length = buf.length := length_splice hf
    rw [layout, List.foldl_cons, ← layout, ih, getD_splice_out (by omega) (hout f (by simp))]
    · intro f' hf'
      rw [hlen]
      exact hin f' (by simp [hf'])
    · exact fun f' hf' => hout f' (by simp [hf'])

/-- **A buffer of disjoint fields holds each of them.** -/
theorem getD_layout (hin : ∀ f ∈ fields, f.1 + f.2.length ≤ buf.length)
    (hapart : fields.Pairwise Apart) {f : ℕ × List α} (hf : f ∈ fields) {i : ℕ}
    (hi : i < f.2.length) (d : α) : (layout buf fields).getD (f.1 + i) d = f.2.getD i d := by
  induction fields generalizing buf with
  | nil => simp at hf
  | cons f' fields ih =>
    obtain ⟨hfirst, hrest⟩ := List.pairwise_cons.mp hapart
    have hf' := hin f' (by simp)
    have hlen : (splice buf f'.1 f'.2).length = buf.length := length_splice hf'
    have hin' : ∀ g ∈ fields, g.1 + g.2.length ≤ (splice buf f'.1 f'.2).length := by
      intro g hg
      rw [hlen]
      exact hin g (by simp [hg])
    rw [layout, List.foldl_cons, ← layout]
    rcases List.mem_cons.mp hf with rfl | hmem
    · rw [getD_layout_out hin', getD_splice_in (by omega) hi]
      intro g hg
      have := hfirst g hg
      unfold Apart at this
      omega
    · exact ih hin' hrest hmem

/-- The slice where a field was written. -/
theorem slice_layout (hin : ∀ f ∈ fields, f.1 + f.2.length ≤ buf.length) (hapart : fields.Pairwise Apart) {off : ℕ}
    {blob : List α} (hf : (off, blob) ∈ fields) : ((layout buf fields).drop off).take blob.length = blob := by
  have hlen := length_layout hin
  have hend : off + blob.length ≤ (layout buf fields).length := by
    rw [hlen]
    exact hin _ hf
  apply List.ext_getElem
  · rw [List.length_take, List.length_drop]
    omega
  · intro i _ hi
    have hget := getD_layout hin hapart hf hi blob[i]
    have hlt : off + i < (layout buf fields).length := by omega
    rw [List.getD_eq_getElem?_getD, List.getElem?_eq_getElem hlt, List.getD_eq_getElem?_getD,
      List.getElem?_eq_getElem hi] at hget
    rw [List.getElem_take, List.getElem_drop]
    exact hget

/-- What lies behind all fields. -/
theorem drop_layout (hin : ∀ f ∈ fields, f.1 + f.2.length ≤ buf.length) {n : ℕ}
    (hn : ∀ f ∈ fields, f.1 + f.2.length ≤ n) : (layout buf fields).drop n = buf.drop n := by
  induction fields generalizing buf with
  | nil => rfl
  | cons f fields ih =>
    have hf := hin f List.mem_cons_self
    have hlen : (splice buf f.1 f.2).length = buf.length := length_splice hf
    rw [layout, List.foldl_cons, ← layout, ih, drop_splice (by omega) (hn f List.mem_cons_self)]
    · intro f' hf'
      rw [hlen]
      exact hin f' (List.mem_cons_of_mem f hf')
    · exact fun f' hf' => hn f' (List.mem_cons_of_mem f hf')

/-- Where the fields are, and how long. -/
def shape (fields : List (ℕ × List α)) : List (ℕ × ℕ) := fields.map fun f => (f.1, f.2.length)

theorem in_of_shape {n : ℕ} (h : ∀ f ∈ shape fields, f.1 + f.2 ≤ n) : ∀ f ∈ fields, f.1 + f.2.length ≤ n :=
  fun _ hf => h _ (List.mem_map_of_mem hf)

theorem apart_of_shape (h : (shape fields).Pairwise fun f f' => f.1 + f.2 ≤ f'.1 ∨ f'.1 + f'.2 ≤ f.1) :
    fields.Pairwise Apart := by
  rw [shape, List.pairwise_map] at h
  exact h

/-- Fields in increasing order are apart. -/
theorem pairwise_apart_of_isChain
    (h : fields.IsChain fun f f' => f.1 + f.2.length ≤ f'.1) : fields.Pairwise Apart := by
  have htrans : IsTrans (ℕ × List α) fun f f' => f.1 + f.2.length ≤ f'.1 :=
    ⟨fun a b c hab hbc => by omega⟩
  exact (List.isChain_iff_pairwise.mp h).imp Or.inl

/-- Fields in increasing order end where the last one does, or before. -/
theorem end_le_of_isChain {front : List (ℕ × List α)} {last f : ℕ × List α}
    (h : (front ++ [last]).IsChain fun f f' => f.1 + f.2.length ≤ f'.1) (hf : f ∈ front ++ [last]) :
    f.1 + f.2.length ≤ last.1 + last.2.length := by
  have htrans : IsTrans (ℕ × List α) fun f f' => f.1 + f.2.length ≤ f'.1 :=
    ⟨fun a b c hab hbc => by omega⟩
  have hpair := List.pairwise_append.mp (List.isChain_iff_pairwise.mp h)
  rcases List.mem_append.mp hf with hfront | hlast
  · have hbefore := hpair.2.2 f hfront last (by simp)
    omega
  · rw [List.mem_singleton.mp hlast]

end

end Orion.Lib
