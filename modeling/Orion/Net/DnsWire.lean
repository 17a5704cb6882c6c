import Mathlib.Data.List.GetD
import Orion.Net.Bounds

/-!
# DNS messages

The wire grammar of names, questions and resource records, over the bytes of a message, and what
`dns_skip_name` and `handle_udp` accept of it.  The code walks over the message by offsets; here an
offset is the rest of the message behind it (`span_drop`), each loop of the code is a function on
such rests (`skipLabels`, `skipQuestions`, `firstAddress`), and these are the parsers of the grammar.
-/

namespace Orion.Net

open Orion.Traced

/-! ## The grammar -/

/-- The big-endian word at `i`. -/
def word (b : List UInt8) (i : ℕ) : ℕ := (b.getD i 0).toNat * 256 + (b.getD (i + 1) 0).toNat

/-- A label with its length in front. -/
def wireLabel (l : List UInt8) : List UInt8 := UInt8.ofNat l.length :: l

def wireLabels (labels : List (List UInt8)) : List UInt8 := labels.flatMap wireLabel

/-- The length of a label is between 1 and 63. -/
def IsLabel (l : List UInt8) : Prop := 1 ≤ l.length ∧ l.length ≤ 63

instance (l : List UInt8) : Decidable (IsLabel l) := inferInstanceAs (Decidable (_ ∧ _))

/-- A name ends with a zero byte or with a compression pointer, two bytes of which the first has its
two top bits set. -/
def IsNameEnd (b : List UInt8) : Prop := b = [0] ∨ ∃ c x : UInt8, 192 ≤ c.toNat ∧ b = [c, x]

/-- A name of at most `n` labels. -/
def IsName (n : ℕ) (b : List UInt8) : Prop :=
  ∃ labels e, labels.length ≤ n ∧ (∀ l ∈ labels, IsLabel l) ∧ IsNameEnd e ∧ b = wireLabels labels ++ e

structure Question where
  name : List UInt8
  fixed : List UInt8
  isName : IsName 127 name
  fixed_length : fixed.length = 4

def Question.bytes (q : Question) : List UInt8 := q.name ++ q.fixed

/-- The fixed part is the type, the class, the time to live and the length of the data. -/
structure ResourceRecord where
  name : List UInt8
  fixed : List UInt8
  rdata : List UInt8
  isName : IsName 127 name
  fixed_length : fixed.length = 10
  rdata_length : rdata.length = word fixed 8

def ResourceRecord.bytes (r : ResourceRecord) : List UInt8 := r.name ++ r.fixed ++ r.rdata

/-- Type A, class IN, length 4. -/
def ResourceRecord.IsAddress (r : ResourceRecord) : Prop :=
  word r.fixed 0 = 1 ∧ word r.fixed 2 = 1 ∧ r.rdata.length = 4

instance (r : ResourceRecord) : Decidable r.IsAddress := inferInstanceAs (Decidable (_ ∧ _ ∧ _))

/-- What is looked at in a message with an address: the header, all questions, and the answer records
up to the first address record. -/
structure AddressMessage where
  header : List UInt8
  questions : List Question
  leading : List ResourceRecord
  answer : ResourceRecord
  rest : List UInt8
  header_length : header.length = 12
  questions_length : questions.length = word header 4
  leading_length : leading.length < word header 6
  leading_other : ∀ r ∈ leading, ¬ r.IsAddress
  answer_address : answer.IsAddress

def AddressMessage.bytes (x : AddressMessage) : List UInt8 :=
  x.header ++ x.questions.flatMap Question.bytes ++ x.leading.flatMap ResourceRecord.bytes ++
    x.answer.bytes ++ x.rest

/-- The message is a response without error to the query with the given number. -/
def AddressMessage.Answers (x : AddressMessage) (dnsId : ℕ) : Prop :=
  word x.header 0 = dnsId ∧ word x.header 2 / 2 ^ 15 ≠ 0 ∧ word x.header 2 % 16 = 0

/-- The datagram comes from a name server to the port of the outstanding query, and its message
answers the query with the address. -/
def AnswersQuery (s : State) (datagram a : List UInt8) : Prop :=
  s.dnsId ≠ 0 ∧ ∃ (x : AddressMessage) (udp padding : List UInt8), udp.length = 8 ∧ word udp 0 = 53 ∧
    word udp 2 = s.dnsPort ∧ word udp 4 = 8 + x.bytes.length ∧ datagram = udp ++ x.bytes ++ padding ∧
    x.Answers s.dnsId ∧ x.answer.rdata = a

/-! ## Names -/

/-- The rest of the message behind a name of fewer than `n` labels. -/
def skipLabels : ℕ → List UInt8 → Option (List UInt8)
  | 0, _ => none
  | _ + 1, [] => none
  | n + 1, z :: b =>
    if z = 0 then some b
    else if 192 ≤ z.toNat then (if b = [] then none else some (b.drop 1))
    else if 63 < z.toNat ∨ b.length < z.toNat then none
    else skipLabels n (b.drop z.toNat)

theorem wireLabels_cons (l : List UInt8) (labels : List (List UInt8)) :
    wireLabels (l :: labels) = wireLabel l ++ wireLabels labels := rfl

theorem toNat_wireLabel {l : List UInt8} (h : IsLabel l) : (UInt8.ofNat l.length).toNat = l.length :=
  UInt8.toNat_ofNat_of_lt' (lt_of_le_of_lt h.2 (by decide))

theorem skipLabels_end {e : List UInt8} (he : IsNameEnd e) (n : ℕ) (rest : List UInt8) :
    skipLabels (n + 1) (e ++ rest) = some rest := by
  obtain rfl | ⟨c, x, hc, rfl⟩ := he
  · rfl
  · have hne : c ≠ 0 := by
      rintro rfl
      simp at hc
    simp [skipLabels, hne, hc]

theorem skipLabels_label {l : List UInt8} (hl : IsLabel l) (n : ℕ) (b : List UInt8) :
    skipLabels (n + 1) (wireLabel l ++ b) = skipLabels n b := by
  have hlen := toNat_wireLabel hl
  obtain ⟨hpos, hmax⟩ := hl
  have hne : UInt8.ofNat l.length ≠ 0 := by
    intro h0
    rw [h0] at hlen
    simp at hlen
    omega
  have hfits : ¬ (63 < l.length ∨ (l ++ b).length < l.length) := by
    rw [List.length_append]
    omega
  rw [wireLabel, List.cons_append, skipLabels, hlen, if_neg hne, if_neg (by omega), if_neg hfits,
    List.drop_left]

/-- What is skipped is the end of a name, or a label with what is skipped behind it. -/
theorem skipLabels_cases {n : ℕ} {b rest : List UInt8} (h : skipLabels (n + 1) b = some rest) :
    (∃ e, IsNameEnd e ∧ b = e ++ rest) ∨
      ∃ l b', IsLabel l ∧ b = wireLabel l ++ b' ∧ skipLabels n b' = some rest := by
  cases b with
  | nil => simp [skipLabels] at h
  | cons z b =>
    unfold skipLabels at h
    split at h
    · rename_i hz
      obtain rfl := Option.some.inj h
      exact .inl ⟨[z], .inl (by rw [hz]), rfl⟩
    split at h
    · rename_i hz
      cases b with
      | nil => simp at h
      | cons x b =>
        obtain rfl : b = rest := by simpa using h
        exact .inl ⟨[z, x], .inr ⟨z, x, hz, rfl⟩, rfl⟩
    split at h
    · simp at h
    · rename_i hz _ hfits
      have hlen : (b.take z.toNat).length = z.toNat := by
        rw [List.length_take]
        omega
      have hpos : z.toNat ≠ 0 := fun h0 => hz (UInt8.toNat_inj.mp h0)
      refine .inr ⟨b.take z.toNat, b.drop z.toNat, ⟨by omega, by omega⟩, ?_, h⟩
      rw [wireLabel, hlen, UInt8.ofNat_toNat, List.cons_append, List.take_append_drop]

/-- A name is skipped, whatever follows it. -/
theorem skipLabels_append {e : List UInt8} (he : IsNameEnd e) (rest : List UInt8) :
    ∀ {labels : List (List UInt8)} {n : ℕ}, labels.length ≤ n → (∀ l ∈ labels, IsLabel l) →
      skipLabels (n + 1) (wireLabels labels ++ e ++ rest) = some rest := by
  intro labels
  induction labels with
  | nil =>
    intro n _ _
    exact skipLabels_end he n rest
  | cons l labels ih =>
    intro n hn hlabels
    cases n with
    | zero => simp at hn
    | succ n =>
      have hrest := ih (Nat.le_of_succ_le_succ hn) fun l' hl' => hlabels l' (List.mem_cons_of_mem _ hl')
      rw [wireLabels_cons, List.append_assoc, List.append_assoc, ← List.append_assoc _ e rest,
        skipLabels_label (hlabels l List.mem_cons_self)]
      exact hrest

/-- What is skipped is a name. -/
theorem skipLabels_some {rest : List UInt8} : ∀ {n : ℕ} {b : List UInt8},
    skipLabels (n + 1) b = some rest → ∃ name, IsName n name ∧ b = name ++ rest := by
  intro n
  induction n with
  | zero =>
    intro b h
    obtain ⟨e, he, rfl⟩ | ⟨l, b', -, -, hrest⟩ := skipLabels_cases h
    · exact ⟨e, ⟨[], e, Nat.le_refl _, by simp, he, rfl⟩, rfl⟩
    · simp [skipLabels] at hrest
  | succ n ih =>
    intro b h
    obtain ⟨e, he, rfl⟩ | ⟨l, b', hl, rfl, hrest⟩ := skipLabels_cases h
    · exact ⟨e, ⟨[], e, Nat.zero_le _, by simp, he, rfl⟩, rfl⟩
    · obtain ⟨name, ⟨labels, e, hn, hlabels, he, rfl⟩, rfl⟩ := ih hrest
      refine ⟨wireLabels (l :: labels) ++ e, ⟨l :: labels, e, Nat.succ_le_succ hn, ?_, he, rfl⟩, ?_⟩
      · intro l' hl'
        obtain rfl | hmem := List.mem_cons.mp hl'
        · exact hl
        · exact hlabels l' hmem
      · rw [wireLabels_cons]
        simp only [List.append_assoc]

/-- **`dns_skip_name` skips exactly the names of at most 127 labels.** -/
theorem skipLabels_iff {b rest : List UInt8} :
    skipLabels 128 b = some rest ↔ ∃ name, IsName 127 name ∧ b = name ++ rest := by
  constructor
  · exact skipLabels_some
  · rintro ⟨name, ⟨labels, e, hn, hlabels, he, rfl⟩, rfl⟩
    exact skipLabels_append he rest hn hlabels

/-! ## Questions and records -/

/-- The rest of the message behind `qd` questions. -/
def skipQuestions : ℕ → List UInt8 → Option (List UInt8)
  | 0, b => some b
  | qd + 1, b =>
    (skipLabels 128 b).bind fun b => if b.length < 4 then none else skipQuestions qd (b.drop 4)

/-- The data of the first address record among `an` records. -/
def firstAddress : ℕ → List UInt8 → Option (List UInt8)
  | 0, _ => none
  | an + 1, b =>
    (skipLabels 128 b).bind fun b =>
      if b.length < 10 + word b 8 then none
      else if word b 0 = 1 ∧ word b 2 = 1 ∧ word b 8 = 4 then some ((b.drop 10).take 4)
      else firstAddress an (b.drop (10 + word b 8))

theorem skipQuestions_iff {rest : List UInt8} : ∀ {qd : ℕ} {b : List UInt8},
    skipQuestions qd b = some rest ↔
      ∃ questions : List Question, questions.length = qd ∧ b = questions.flatMap Question.bytes ++ rest := by
  intro qd
  induction qd with
  | zero =>
    intro b
    constructor
    · intro h
      exact ⟨[], rfl, Option.some.inj h⟩
    · rintro ⟨questions, hlen, rfl⟩
      obtain rfl := List.length_eq_zero_iff.mp hlen
      rfl
  | succ qd ih =>
    intro b
    unfold skipQuestions
    constructor
    · intro h
      obtain ⟨c, hc, hrest⟩ := Option.bind_eq_some_iff.mp h
      obtain ⟨name, hname, rfl⟩ := skipLabels_iff.mp hc
      split at hrest
      · simp at hrest
      · rename_i hfits
        obtain ⟨questions, hlen, hb⟩ := ih.mp hrest
        have hfixed : (c.take 4).length = 4 := by
          rw [List.length_take]
          omega
        refine ⟨⟨name, c.take 4, hname, hfixed⟩ :: questions, by rw [List.length_cons, hlen], ?_⟩
        rw [List.flatMap_cons, List.append_assoc, ← hb, Question.bytes, List.append_assoc,
          List.take_append_drop]
    · rintro ⟨questions, hlen, rfl⟩
      cases questions with
      | nil => simp at hlen
      | cons q questions =>
        have hname : skipLabels 128 ((q :: questions).flatMap Question.bytes ++ rest) =
            some (q.fixed ++ (questions.flatMap Question.bytes ++ rest)) := by
          refine skipLabels_iff.mpr ⟨q.name, q.isName, ?_⟩
          rw [List.flatMap_cons, Question.bytes]
          simp only [List.append_assoc]
        have hfixed := q.fixed_length
        rw [hname, Option.bind_some, if_neg (by rw [List.length_append]; omega),
          List.drop_left' hfixed]
        exact ih.mpr ⟨questions, by simpa using hlen, rfl⟩

/-! ## Words of the fixed part -/

theorem word_append {b : List UInt8} {i : ℕ} (h : i + 2 ≤ b.length) (rest : List UInt8) :
    word (b ++ rest) i = word b i := by
  unfold word
  rw [List.getD_append _ _ _ _ (by omega), List.getD_append _ _ _ _ (by omega)]

theorem word_take {b : List UInt8} {i n : ℕ} (h : i + 2 ≤ n) (hn : n ≤ b.length) :
    word (b.take n) i = word b i := by
  have hlen : (b.take n).length = n := List.length_take_of_le hn
  have happend := @word_append (b.take n) i (by omega) (b.drop n)
  rw [List.take_append_drop] at happend
  exact happend.symm

/-- The record at the start of `b`, whose name has been skipped. -/
def recordAt {name b : List UInt8} (hname : IsName 127 name) (h : 10 + word b 8 ≤ b.length) :
    ResourceRecord where
  name := name
  fixed := b.take 10
  rdata := (b.drop 10).take (word b 8)
  isName := hname
  fixed_length := List.length_take_of_le (by omega)
  rdata_length := by
    rw [word_take (by omega) (by omega), List.length_take, List.length_drop]
    omega

theorem recordAt_bytes {name b : List UInt8} (hname : IsName 127 name)
    (h : 10 + word b 8 ≤ b.length) :
    name ++ b = (recordAt hname h).bytes ++ b.drop (10 + word b 8) := by
  show name ++ b = (name ++ b.take 10 ++ (b.drop 10).take (word b 8)) ++ b.drop (10 + word b 8)
  rw [← List.drop_drop, List.append_assoc, List.append_assoc, List.take_append_drop,
    List.take_append_drop]

/-- The loop over the answers when the next one is the record `r`. -/
theorem firstAddress_record (r : ResourceRecord) (an : ℕ) (b : List UInt8) :
    firstAddress (an + 1) (r.bytes ++ b) = if r.IsAddress then some r.rdata else firstAddress an b := by
  have hname : skipLabels 128 (r.bytes ++ b) = some (r.fixed ++ (r.rdata ++ b)) := by
    refine skipLabels_iff.mpr ⟨r.name, r.isName, ?_⟩
    rw [ResourceRecord.bytes]
    simp only [List.append_assoc]
  have hfixed := r.fixed_length
  have hdata := r.rdata_length
  have hword : ∀ i, i + 2 ≤ 10 → word (r.fixed ++ (r.rdata ++ b)) i = word r.fixed i :=
    fun i hi => word_append (by omega) _
  have hdrop : (r.fixed ++ (r.rdata ++ b)).drop (10 + word r.fixed 8) = b := by
    rw [← List.drop_drop, List.drop_left' hfixed, List.drop_left' hdata]
  rw [firstAddress, hname, Option.bind_some, hword 8 (by omega), hword 0 (by omega), hword 2 (by omega),
    if_neg (by simp only [List.length_append]; omega), hdrop, ← hdata]
  by_cases haddress : r.IsAddress
  · have hcond : word r.fixed 0 = 1 ∧ word r.fixed 2 = 1 ∧ r.rdata.length = 4 := haddress
    rw [if_pos haddress, if_pos hcond, List.drop_left' hfixed, ← haddress.2.2, List.take_left]
  · have hcond : ¬ (word r.fixed 0 = 1 ∧ word r.fixed 2 = 1 ∧ r.rdata.length = 4) := haddress
    rw [if_neg haddress, if_neg hcond]

theorem firstAddress_iff {a : List UInt8} : ∀ {an : ℕ} {b : List UInt8},
    firstAddress an b = some a ↔ ∃ (leading : List ResourceRecord) (answer : ResourceRecord)
      (rest : List UInt8), leading.length < an ∧ (∀ r ∈ leading, ¬ r.IsAddress) ∧ answer.IsAddress ∧
        answer.rdata = a ∧ b = leading.flatMap ResourceRecord.bytes ++ answer.bytes ++ rest := by
  intro an
  induction an with
  | zero =>
    intro b
    constructor
    · intro h
      simp [firstAddress] at h
    · rintro ⟨leading, answer, rest, hlen, -⟩
      exact absurd hlen (Nat.not_lt_zero _)
  | succ an ih =>
    intro b
    constructor
    · intro h
      have hturn := h
      unfold firstAddress at h
      obtain ⟨c, hc, hrest⟩ := Option.bind_eq_some_iff.mp h
      obtain ⟨name, hname, rfl⟩ := skipLabels_iff.mp hc
      split at hrest
      · simp at hrest
      · rename_i hfits
        have hinside : 10 + word c 8 ≤ c.length := by omega
        rw [recordAt_bytes hname hinside, firstAddress_record] at hturn
        rw [recordAt_bytes hname hinside]
        by_cases haddress : (recordAt hname hinside).IsAddress
        · rw [if_pos haddress] at hturn
          exact ⟨[], recordAt hname hinside, _, Nat.succ_pos _, by simp, haddress,
            Option.some.inj hturn, rfl⟩
        · rw [if_neg haddress] at hturn
          obtain ⟨leading, answer, rest, hlen, hother, hanswer, hdata, hb⟩ := ih.mp hturn
          refine ⟨recordAt hname hinside :: leading, answer, rest, Nat.succ_lt_succ hlen, ?_, hanswer,
            hdata, ?_⟩
          · intro r hr
            obtain rfl | hmem := List.mem_cons.mp hr
            · exact haddress
            · exact hother r hmem
          · rw [hb, List.flatMap_cons]
            simp only [List.append_assoc]
    · rintro ⟨leading, answer, rest, hlen, hother, hanswer, hdata, rfl⟩
      cases leading with
      | nil =>
        rw [List.flatMap_nil, List.nil_append, firstAddress_record, if_pos hanswer, hdata]
      | cons r leading =>
        have hr := hother r List.mem_cons_self
        have hrest : firstAddress an (leading.flatMap ResourceRecord.bytes ++ answer.bytes ++ rest) =
            some a := by
          refine ih.mpr ⟨leading, answer, rest, Nat.lt_of_succ_lt_succ hlen, ?_, hanswer, hdata, rfl⟩
          exact fun r' hr' => hother r' (List.mem_cons_of_mem _ hr')
        rw [List.flatMap_cons, List.append_assoc, List.append_assoc, firstAddress_record, if_neg hr,
          ← List.append_assoc]
        exact hrest

end Orion.Net
