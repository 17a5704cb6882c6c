import Orion.Aster.Tokens

/-!
# Trees and their serialisation

An ordered forest of elements and texts, the markup that it is written as, and what the tokenizer
reads there: `tokens_serial`.
-/

namespace Orion.Aster

/-! ## Trees -/

/-- An ordered forest: nothing, or a first tree and the ones behind it. -/
inductive Forest where
  | nil
  | text (s : List UInt8) (next : Forest)
  | elem (tag : Tag) (children next : Forest)
  deriving Repr, DecidableEq

namespace Forest

/-- The number of nodes. -/
def size : Forest → ℕ
  | nil => 0
  | text _ f => f.size + 1
  | elem _ c f => c.size + f.size + 1

/-- How deep elements with content are nested. -/
def depth : Forest → ℕ
  | nil => 0
  | text _ f => f.depth
  | elem t c f => max (if voidtag t then 0 else c.depth + 1) f.depth

def textBytes : Forest → ℕ
  | nil => 0
  | text s f => s.length + f.textBytes
  | elem _ c f => c.textBytes + f.textBytes

def startsWithText : Forest → Bool
  | text _ _ => true
  | _ => false

end Forest

/-- Text as it may stand in a tree: not empty, at most 767 characters, and the only whitespace are
single blanks inside. -/
structure TextOk (s : List UInt8) : Prop where
  ne_nil : s ≠ []
  length_le : s.length ≤ 767
  chars : ∀ c ∈ s, c ≠ 0 ∧ (sp c = true → c = 32)
  head : s.head? ≠ some 32
  last : s.getLast? ≠ some 32
  single : ¬ [32, 32] <:+: s

/-- The elements of a tree. -/
def Known (t : Tag) : Prop := t ≠ .unknown ∧ t ≠ .script ∧ t ≠ .style

/-- Texts are proper and not next to each other; void elements are leaves. -/
def Forest.Ok : Forest → Prop
  | .nil => True
  | .text s f => TextOk s ∧ f.startsWithText = false ∧ f.Ok
  | .elem t c f => Known t ∧ (voidtag t = true → c = .nil) ∧ c.Ok ∧ f.Ok

/-! ## Markup -/

/-- `<`, `>` and `&` are written as entities. -/
def escapeChar (c : UInt8) : List UInt8 :=
  if c = 60 then ascii "&lt;"
  else if c = 62 then ascii "&gt;"
  else if c = 38 then ascii "&amp;"
  else [c]

def escape (s : List UInt8) : List UInt8 := s.flatMap escapeChar

/-- `n` is a name of the tag, in any letter case. -/
def Spells (n : List UInt8) (t : Tag) : Prop := ∃ e ∈ tagNames, e.2 = t ∧ eqn n (ascii e.1) = true

/-- The markup of a forest. -/
inductive Serial : Forest → List UInt8 → Prop
  | nil : Serial .nil []
  | text {s out : List UInt8} {f : Forest} : Serial f out → Serial (.text s f) (escape s ++ out)
  | void {t : Tag} {n out : List UInt8} {f : Forest} : voidtag t = true → Spells n t →
      Serial f out → Serial (.elem t .nil f) (60 :: (n ++ 62 :: out))
  | elem {t : Tag} {n m inner out : List UInt8} {c f : Forest} : voidtag t = false →
      Spells n t → Spells m t → Serial c inner → Serial f out →
      Serial (.elem t c f) (60 :: (n ++ 62 :: (inner ++ 60 :: 47 :: (m ++ 62 :: out))))

/-! ## Names -/

theorem forall_uint8 {P : UInt8 → Prop} (h : ∀ n < 256, P (UInt8.ofNat n)) (c : UInt8) : P c := by
  have hc := h c.toNat c.toNat_lt
  rwa [UInt8.ofNat_toNat] at hc

/-- A letter or a digit. -/
def nameByte (c : UInt8) : Bool := (97 ≤ c && c ≤ 122) || (48 ≤ c && c ≤ 57)

/-- What the tokenizer tests of a character of a name. -/
def plainByte (c : UInt8) : Bool := tagNameChar c && c ≠ 0 && c ≠ 33 && c ≠ 60 && c ≠ 63

theorem plainByte_of_low (c : UInt8) : nameByte (lowerAscii c) = true → plainByte c = true :=
  forall_uint8 (P := fun c => nameByte (lowerAscii c) = true → plainByte c = true)
    (by decide +kernel) c

theorem tagNames_bytes : ∀ e ∈ tagNames, ascii e.1 ≠ [] ∧
    ∀ c ∈ (ascii e.1).map lowerAscii, nameByte c = true := by decide +kernel

theorem tagid_tagNames : ∀ e ∈ tagNames, tagid (ascii e.1) = e.2 := by decide

theorem tagid_congr {n n' : List UInt8} (h : n.map lowerAscii = n'.map lowerAscii) :
    tagid n = tagid n' := by
  have heq : ∀ l, eqn n l = eqn n' l := by
    intro l
    unfold eqn eqCi
    rw [h]
  unfold tagid
  simp only [heq]

namespace Spells

variable {n : List UInt8} {t : Tag} (h : Spells n t)

include h

theorem tagid_eq : tagid n = t := by
  obtain ⟨e, he, rfl, heq⟩ := h
  rw [tagid_congr (of_decide_eq_true heq), tagid_tagNames e he]

theorem plain : ∀ c ∈ n, plainByte c = true := by
  obtain ⟨e, he, -, heq⟩ := h
  intro c hc
  apply plainByte_of_low
  apply (tagNames_bytes e he).2
  rw [← show n.map lowerAscii = (ascii e.1).map lowerAscii from of_decide_eq_true heq]
  exact List.mem_map_of_mem hc

theorem ne_nil : n ≠ [] := by
  obtain ⟨e, he, -, heq⟩ := h
  rintro rfl
  have hmap : [].map lowerAscii = (ascii e.1).map lowerAscii := of_decide_eq_true heq
  exact (tagNames_bytes e he).1 (List.map_eq_nil_iff.mp hmap.symm)

end Spells

/-! ## Tokens -/

/-- The tokens of a forest. -/
def Forest.tokens : Forest → List Token
  | .nil => []
  | .text s f => .text (escape s) :: f.tokens
  | .elem t c f =>
    .element t [] false :: ((if voidtag t then [] else c.tokens ++ [.close t]) ++ f.tokens)

/-- A name between `<` and `>`, behind an optional slash. -/
theorem tagName_split {n : List UInt8} (h : ∀ c ∈ n, plainByte c = true) (hne : n ≠ [])
    (rest : List UInt8) : (n ++ 62 :: rest).dropWhile sp = n ++ 62 :: rest ∧
      (n ++ 62 :: rest).takeWhile tagNameChar = n ∧
      (n ++ 62 :: rest).dropWhile tagNameChar = 62 :: rest := by
  have hname : ∀ c ∈ n, tagNameChar c = true := by
    intro c hc
    have := h c hc
    simp only [plainByte, Bool.and_eq_true] at this
    exact this.1.1.1.1
  refine ⟨?_, ?_, ?_⟩
  · obtain ⟨c, n, rfl⟩ := List.exists_cons_of_ne_nil hne
    have hc := hname c (by simp)
    have hsp : sp c = false := by
      simp only [tagNameChar, Bool.and_eq_true, Bool.not_eq_true'] at hc
      exact hc.1.1
    rw [List.cons_append, List.dropWhile_cons, hsp]
    rfl
  · rw [List.takeWhile_append_of_pos hname]
    simp [tagNameChar]
  · rw [List.dropWhile_append_of_pos hname]
    simp [tagNameChar]

theorem plainByte_ne {c d : UInt8} (h : plainByte c = true) (hd : plainByte d = false) : c ≠ d := by
  rintro rfl
  rw [h] at hd
  cases hd

/-- An opening tag without attributes. -/
theorem nextToken_open {n : List UInt8} {t : Tag} (hn : Spells n t) (hk : Known t)
    (rest : List UInt8) : nextToken (60 :: (n ++ 62 :: rest)) = (.element t [] false, rest) := by
  obtain ⟨hsp, htake, hdrop⟩ := tagName_split hn.plain hn.ne_nil rest
  obtain ⟨c, n', rfl⟩ := List.exists_cons_of_ne_nil hn.ne_nil
  have hc := hn.plain c (by simp)
  have hbang : c ≠ 33 := plainByte_ne hc (by decide)
  have hquestion : c ≠ 63 := plainByte_ne hc (by decide)
  have hslash : c ≠ 47 := plainByte_ne hc (by decide)
  have hcomment : ci (60 :: (c :: n' ++ 62 :: rest)) (ascii "<!--") = false :=
    ci_comment_ne hbang (n' ++ 62 :: rest)
  rw [nextToken, if_neg (by simp), hcomment]
  simp only [List.drop_succ_cons, List.drop_zero]
  rw [if_neg (by simp), if_neg (by simp [hbang, hquestion])]
  unfold tagToken
  simp only [List.cons_append, List.head?_cons, Option.some.injEq, hslash, if_false]
  rw [← List.cons_append, hsp, htake, hdrop, hn.tagid_eq, openToken]
  simp only [hk.2.1, hk.2.2, if_false]
  rfl

/-- A closing tag. -/
theorem nextToken_close {n : List UInt8} {t : Tag} (hn : Spells n t) (rest : List UInt8) :
    nextToken (60 :: 47 :: (n ++ 62 :: rest)) = (.close t, rest) := by
  obtain ⟨hsp, htake, hdrop⟩ := tagName_split hn.plain hn.ne_nil rest
  show tagToken (47 :: (n ++ 62 :: rest)) = _
  unfold tagToken
  simp only [List.head?_cons, if_true, List.drop_succ_cons, List.drop_zero]
  rw [hsp, htake, hdrop, hn.tagid_eq]
  rfl

/-- The characters of an escaped text are those of the text, except `<`, and of the entities. -/
theorem mem_escape {c : UInt8} {s : List UInt8} (h : c ∈ escape s) :
    (c ∈ s ∧ c ≠ 60) ∨ c ∈ ascii "&ltgamp;" := by
  have hlt : ascii "&lt;" ⊆ ascii "&ltgamp;" := by decide
  have hgt : ascii "&gt;" ⊆ ascii "&ltgamp;" := by decide
  have hamp : ascii "&amp;" ⊆ ascii "&ltgamp;" := by decide
  obtain ⟨x, hx, hc⟩ := List.mem_flatMap.mp h
  unfold escapeChar at hc
  split at hc
  · exact .inr (hlt hc)
  · next h60 =>
    split at hc
    · exact .inr (hgt hc)
    · split at hc
      · exact .inr (hamp hc)
      · rw [List.mem_singleton.mp hc]
        exact .inl ⟨hx, h60⟩

/-- Escaped text has no `<`. -/
theorem escape_chars (s : List UInt8) : ∀ c ∈ escape s, c ≠ 60 := by
  have hentity : ∀ c ∈ ascii "&ltgamp;", c ≠ 60 := by decide +kernel
  intro c hc
  rcases mem_escape hc with ⟨-, hne⟩ | hc
  · exact hne
  · exact hentity c hc

theorem escape_ne_nil {s : List UInt8} (h : s ≠ []) : escape s ≠ [] := by
  obtain ⟨c, s, rfl⟩ := List.exists_cons_of_ne_nil h
  unfold escape escapeChar
  rw [List.flatMap_cons]
  split
  · simp [ascii]
  · split
    · simp [ascii]
    · split <;> simp [ascii]

/-- A piece of text, up to the next tag. -/
theorem nextToken_text {raw rest : List UInt8} (hne : raw ≠ []) (hraw : ∀ c ∈ raw, c ≠ 60)
    (hrest : rest = [] ∨ rest.head? = some 60) : nextToken (raw ++ rest) = (.text raw, rest) := by
  have hend : rest.takeWhile (· ≠ 60) = [] ∧ rest.dropWhile (· ≠ 60) = rest := by
    rcases hrest with rfl | hhead
    · exact ⟨rfl, rfl⟩
    · obtain ⟨more, rfl⟩ := List.head?_eq_some_iff.mp hhead
      exact ⟨by simp, by simp⟩
  have hall : ∀ c ∈ raw, decide (c ≠ 60) = true := fun c hc => decide_eq_true (hraw c hc)
  have hhead : (raw ++ rest).head? ≠ some 60 := by
    obtain ⟨c, raw, rfl⟩ := List.exists_cons_of_ne_nil hne
    simpa using hraw c (by simp)
  rw [nextToken, if_pos hhead, List.takeWhile_append_of_pos hall, List.dropWhile_append_of_pos hall,
    hend.1, hend.2, List.append_nil]

theorem Serial.starts {f : Forest} {out : List UInt8} (h : Serial f out)
    (hf : f.startsWithText = false) {rest : List UInt8}
    (hrest : rest = [] ∨ rest.head? = some 60) :
    out ++ rest = [] ∨ (out ++ rest).head? = some 60 := by
  cases h with
  | nil => exact hrest
  | text _ => cases hf
  | void _ _ _ => exact .inr rfl
  | elem _ _ _ _ _ => exact .inr rfl

/-- **The tokens of a serialisation** are those of the forest. -/
theorem tokens_serial {f : Forest} {out : List UInt8} (h : Serial f out) : f.Ok →
    ∀ {rest : List UInt8}, (rest = [] ∨ rest.head? = some 60) →
      tokens (out ++ rest) = f.tokens ++ tokens rest := by
  induction h with
  | nil => exact fun _ _ _ => rfl
  | @text s out f hser ih =>
    rintro ⟨hs, hnext, hok⟩ rest hrest
    have hne := escape_ne_nil hs.ne_nil
    rw [List.append_assoc, tokens_cons (by simp [hne]),
      nextToken_text hne (escape_chars s) (hser.starts hnext hrest)]
    simp only
    rw [ih hok hrest]
    rfl
  | @void t n out f hvoid hn hser ih =>
    rintro ⟨hk, -, -, hok⟩ rest hrest
    rw [List.cons_append, List.append_assoc, List.cons_append, tokens_cons (by simp),
      nextToken_open hn hk]
    simp only
    rw [ih hok hrest, Forest.tokens, hvoid]
    rfl
  | @elem t n m inner out c f hvoid hn hm hc hser ihc ih =>
    rintro ⟨hk, -, hcok, hok⟩ rest hrest
    rw [List.cons_append, List.append_assoc, List.cons_append, tokens_cons (by simp),
      nextToken_open hn hk]
    simp only
    rw [List.append_assoc, ihc hcok (.inr rfl), List.cons_append, List.cons_append,
      List.append_assoc, List.cons_append, tokens_cons (by simp), nextToken_close hm]
    simp only
    rw [ih hok hrest, Forest.tokens, hvoid]
    simp

end Orion.Aster
