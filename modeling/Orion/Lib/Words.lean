import Mathlib.Data.List.TakeWhile

/-!
# Words

The words of a text are its longest pieces without separators (`words`).  A scanner finds them by skipping
separators and then taking what is no separator (`words_eq`).  `wordSpans` are the places of the words: a
word begins where a separator, or nothing, is in front of what is no separator.
-/

namespace Orion.Lib

variable {α : Type*} {p : α → Bool}

def words (p : α → Bool) (s : List α) : List (List α) := (s.splitOnP p).filter (!·.isEmpty)

@[simp] theorem words_nil : words p [] = [] := rfl

/-- A separator in front does not count. -/
theorem words_cons_sep {c : α} (hc : p c = true) (s : List α) : words p (c :: s) = words p s := by
  rw [words, List.splitOnP_cons_eq_if_modifyHead, if_pos hc]
  rfl

theorem words_dropWhile (s : List α) : words p (s.dropWhile p) = words p s := by
  induction s with
  | nil => rfl
  | cons c s ih =>
    cases hc : p c with
    | true => rw [List.dropWhile_cons_of_pos hc, ih, words_cons_sep hc]
    | false => rw [List.dropWhile_cons_of_neg (by rw [hc]; exact Bool.false_ne_true)]

/-- A text without separators. -/
theorem words_word {w : List α} (hw : ∀ c ∈ w, p c = false) : words p w = if w.isEmpty then [] else [w] := by
  rw [words, List.splitOnP_eq_singleton hw]
  cases w <;> rfl

/-- A word in front of a separator. -/
theorem words_append {w : List α} (hne : w ≠ []) (hw : ∀ c ∈ w, p c = false) {c : α} (hc : p c = true)
    (s : List α) : words p (w ++ c :: s) = w :: words p s := by
  rw [words, List.splitOnP_append_cons_of_forall_mem hw c hc, List.filter_cons_of_pos]
  · rfl
  · cases w with
    | nil => exact absurd rfl hne
    | cons => rfl

/-- A word in front of a separator or of the end. -/
theorem words_append_of_head {w : List α} (hne : w ≠ []) (hw : ∀ c ∈ w, p c = false) {s : List α}
    (hs : ∀ c ∈ s.head?, p c = true) : words p (w ++ s) = w :: words p s := by
  cases s with
  | nil =>
    rw [List.append_nil, words_word hw, if_neg (by rw [List.isEmpty_iff]; exact hne)]
    rfl
  | cons c s =>
    have hc := hs c rfl
    rw [words_append hne hw hc, words_cons_sep hc]

/-- A text of separators. -/
theorem words_separators {s : List α} (hs : ∀ c ∈ s, p c = true) : words p s = [] := by
  rw [← words_dropWhile, List.dropWhile_eq_nil_iff.mpr hs, words_nil]

/-- **The words, as a scanner finds them**, of a text that does not begin with a separator. -/
theorem words_eq {c : α} (hc : p c = false) (s : List α) :
    words p (c :: s) = (c :: s).takeWhile (!p ·) :: words p ((c :: s).dropWhile (!p ·)) := by
  have hall : ∀ a ∈ (c :: s).takeWhile (!p ·), p a = false := by
    intro a ha
    simpa using List.mem_takeWhile_imp ha
  have hne : (c :: s).takeWhile (!p ·) ≠ [] := by
    rw [List.takeWhile_cons_of_pos (by rw [hc]; rfl)]
    exact List.cons_ne_nil _ _
  have hsplit := List.takeWhile_append_dropWhile (p := (!p ·)) (l := c :: s)
  have hstop := List.head?_dropWhile_not (!p ·) (c :: s)
  generalize (c :: s).takeWhile (!p ·) = w at *
  generalize (c :: s).dropWhile (!p ·) = rest at *
  rw [← hsplit]
  cases rest with
  | nil =>
    rw [List.append_nil, words_word hall]
    cases w with
    | nil => exact absurd rfl hne
    | cons => rfl
  | cons b rest =>
    have hb : p b = true := by simpa using hstop
    rw [words_append hne hall hb, words_cons_sep hb]

/-! ## The places of words -/

/-- Where words begin; `b` says whether a word may begin with the text. -/
def startsAfter (p : α → Bool) (b : Bool) (s : List α) : List ℕ :=
  (List.range s.length).filter fun i => (s[i]?).any (!p ·) && if i = 0 then b else (s[i - 1]?).any p

/-- The words of a text: where they begin, and how long they are. -/
def wordSpans (p : α → Bool) (s : List α) : List (ℕ × ℕ) :=
  (startsAfter p true s).map fun i => (i, ((s.drop i).takeWhile (!p ·)).length)

theorem startsAfter_cons (b : Bool) (c : α) (s : List α) :
    startsAfter p b (c :: s) =
      (if b && !p c then [0] else []) ++ (startsAfter p (p c) s).map (· + 1) := by
  rw [startsAfter, List.length_cons, List.range_succ_eq_map, List.filter_cons, List.filter_map, startsAfter]
  have hfront : (((c :: s)[0]?).any (!p ·) && if 0 = 0 then b else ((c :: s)[0 - 1]?).any p) = (b && !p c) := by
    rw [if_pos rfl, Bool.and_comm]
    rfl
  have hrest : ((fun i => ((c :: s)[i]?).any (!p ·) && if i = 0 then b else ((c :: s)[i - 1]?).any p) ∘
      Nat.succ) = fun i => (s[i]?).any (!p ·) && if i = 0 then p c else (s[i - 1]?).any p := by
    funext i
    cases i <;> rfl
  rw [hfront, hrest]
  split <;> rfl

/-- In front of a separator, or of the end, no word begins. -/
theorem startsAfter_stop {s : List α} (hs : ∀ c ∈ s.head?, p c = true) (b b' : Bool) :
    startsAfter p b s = startsAfter p b' s := by
  cases s with
  | nil => rfl
  | cons c s =>
    have hc : p c = true := hs c rfl
    rw [startsAfter_cons, startsAfter_cons, hc, Bool.not_true, Bool.and_false, Bool.and_false]

/-- No word begins inside a word. -/
theorem startsAfter_word {w s : List α} (hw : ∀ c ∈ w, p c = false) (hs : ∀ c ∈ s.head?, p c = true) :
    startsAfter p false (w ++ s) = (startsAfter p true s).map (· + w.length) := by
  induction w with
  | nil =>
    rw [List.nil_append, startsAfter_stop hs false true]
    exact (List.map_id _).symm
  | cons c w ih =>
    rw [List.cons_append, startsAfter_cons, hw c List.mem_cons_self,
      ih fun a ha => hw a (List.mem_cons_of_mem _ ha), List.map_map]
    refine List.map_congr_left fun i _ => ?_
    show i + w.length + 1 = i + (w.length + 1)
    rw [Nat.add_assoc]

theorem wordSpans_lt {s : List α} {w : ℕ × ℕ} (hw : w ∈ wordSpans p s) : w.1 < s.length := by
  obtain ⟨i, hi, rfl⟩ := List.mem_map.mp hw
  exact List.mem_range.mp (List.mem_filter.mp hi).1

/-- Words are not empty. -/
theorem wordSpans_len {s : List α} {w : ℕ × ℕ} (hw : w ∈ wordSpans p s) : 0 < w.2 ∧ w.2 ≤ s.length := by
  obtain ⟨i, hi, rfl⟩ := List.mem_map.mp hw
  obtain ⟨hrange, hbegins⟩ := List.mem_filter.mp hi
  have hlt := List.mem_range.mp hrange
  rw [List.getElem?_eq_getElem hlt, Option.any_some, Bool.and_eq_true] at hbegins
  constructor
  · rw [List.drop_eq_getElem_cons hlt, List.takeWhile_cons_of_pos (p := (!p ·)) hbegins.1]
    exact Nat.succ_pos _
  · exact ((List.takeWhile_sublist _).trans (List.drop_sublist _ _)).length_le

@[simp] theorem wordSpans_nil : wordSpans p [] = [] := rfl

theorem wordSpans_sep {c : α} (hc : p c = true) (s : List α) :
    wordSpans p (c :: s) = (wordSpans p s).map fun w => (w.1 + 1, w.2) := by
  rw [wordSpans, startsAfter_cons, hc, Bool.not_true, Bool.and_false, if_neg Bool.false_ne_true,
    List.nil_append, List.map_map, wordSpans, List.map_map]
  rfl

/-- A word, and what follows it. -/
theorem wordSpans_word {w s : List α} (hne : w ≠ []) (hw : ∀ c ∈ w, p c = false)
    (hs : ∀ c ∈ s.head?, p c = true) :
    wordSpans p (w ++ s) = (0, w.length) :: (wordSpans p s).map fun x => (x.1 + w.length, x.2) := by
  have htake : ((w ++ s).takeWhile (!p ·)) = w := by
    rw [List.takeWhile_append_of_pos fun a ha => by rw [hw a ha]; rfl]
    cases s with
    | nil => rw [List.takeWhile_nil, List.append_nil]
    | cons c s => rw [List.takeWhile_cons_of_neg (by rw [hs c rfl]; decide), List.append_nil]
  have hstarts : startsAfter p true (w ++ s) = 0 :: (startsAfter p true s).map (· + w.length) := by
    obtain ⟨c, v, rfl⟩ := List.exists_cons_of_ne_nil hne
    have hc : p c = false := hw c List.mem_cons_self
    rw [List.cons_append, startsAfter_cons, hc,
      startsAfter_word (fun a ha => hw a (List.mem_cons_of_mem _ ha)) hs, List.map_map]
    show [0] ++ _ = _
    rw [List.singleton_append]
    refine congrArg _ (List.map_congr_left fun i _ => ?_)
    show i + v.length + 1 = i + (v.length + 1)
    rw [Nat.add_assoc]
  rw [wordSpans, hstarts, List.map_cons, List.drop_zero, htake, wordSpans, List.map_map, List.map_map]
  refine congrArg _ (List.map_congr_left fun i _ => ?_)
  have hdrop : (w ++ s).drop (i + w.length) = s.drop i := by
    rw [Nat.add_comm, List.drop_length_add_append]
  show (i + w.length, (((w ++ s).drop (i + w.length)).takeWhile (!p ·)).length) = _
  rw [hdrop]
  rfl

/-- Separators in front shift the words. -/
theorem wordSpans_dropWhile (s : List α) :
    wordSpans p s = (wordSpans p (s.dropWhile p)).map fun x => (x.1 + (s.takeWhile p).length, x.2) := by
  induction s with
  | nil => rfl
  | cons c s ih =>
    cases hc : p c with
    | true =>
      rw [List.dropWhile_cons_of_pos hc, List.takeWhile_cons_of_pos hc, wordSpans_sep hc, ih, List.map_map]
      refine List.map_congr_left fun x _ => ?_
      show (x.1 + (s.takeWhile p).length + 1, x.2) = (x.1 + ((s.takeWhile p).length + 1), x.2)
      rw [Nat.add_assoc]
    | false =>
      have hneg : ¬ p c = true := by rw [hc]; exact Bool.false_ne_true
      rw [List.dropWhile_cons_of_neg hneg, List.takeWhile_cons_of_neg hneg]
      exact (List.map_id _).symm

/-- The words of a text that begins with one. -/
theorem wordSpans_cons {c : α} (hc : p c = false) (s : List α) :
    wordSpans p (c :: s) = (0, ((c :: s).takeWhile (!p ·)).length) ::
      (wordSpans p ((c :: s).dropWhile (!p ·))).map
        fun x => (x.1 + ((c :: s).takeWhile (!p ·)).length, x.2) := by
  have hne : (c :: s).takeWhile (!p ·) ≠ [] := by
    rw [List.takeWhile_cons_of_pos (by rw [hc]; rfl)]
    exact List.cons_ne_nil _ _
  have hword : ∀ a ∈ (c :: s).takeWhile (!p ·), p a = false := by
    intro a ha
    simpa using List.mem_takeWhile_imp ha
  have hstop : ∀ a ∈ ((c :: s).dropWhile (!p ·)).head?, p a = true := by
    intro a ha
    have hhead := List.head?_dropWhile_not (!p ·) (c :: s)
    rw [Option.mem_def.mp ha] at hhead
    simpa using hhead
  rw [← wordSpans_word hne hword hstop, List.takeWhile_append_dropWhile]

end Orion.Lib
