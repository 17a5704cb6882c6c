import Orion.Http.Message

/-!
# The scan of the fields against the grammar

`splitColon` and `trim` find exactly the fields of the grammar (`isField_iff`), `value_has_chunked`
exactly the lists that name `chunked` (`valueHasChunked_iff`), and the loop over the fields exactly
the framing that they announce (`scanFields_spec`).
-/

namespace Orion.Http

/-! ## Names -/

/-- No colon and no blank, up to case. -/
def PlainName (name : List UInt8) : Prop :=
  ∀ c ∈ name.map lowerAscii, c ≠ 58 ∧ c ≠ 44 ∧ c ≠ 59 ∧ isBlank c = false

instance (name : List UInt8) : Decidable (PlainName name) := List.decidableBAll _ _

theorem lowerAscii_of_blank {c : UInt8} (h : isBlank c = true) : lowerAscii c = c := by
  unfold isBlank at h
  simp only [Bool.or_eq_true, decide_eq_true_eq] at h
  rcases h with rfl | rfl <;> decide

/-- What equals a plain name up to case has none of the separators. -/
theorem PlainName.of_eqCi {field name : List UInt8} (hname : PlainName name)
    (h : eqCi field name = true) : ∀ c ∈ field, c ≠ 58 ∧ c ≠ 44 ∧ c ≠ 59 ∧ isBlank c = false := by
  intro c hc
  have hmap : field.map lowerAscii = name.map lowerAscii := by simpa [eqCi] using h
  have hlow := hname (lowerAscii c) (hmap ▸ List.mem_map_of_mem hc)
  refine ⟨?_, ?_, ?_, ?_⟩
  · rintro rfl
    exact hlow.1 (by decide)
  · rintro rfl
    exact hlow.2.1 (by decide)
  · rintro rfl
    exact hlow.2.2.1 (by decide)
  · by_contra hb
    rw [Bool.not_eq_false] at hb
    rw [lowerAscii_of_blank hb, hb] at hlow
    exact Bool.noConfusion hlow.2.2.2

/-! ## Fields -/

/-- **A line is a field of the grammar exactly when the scan reads it as one.** -/
theorem isField_iff {name : String} (hname : PlainName (ascii name)) {line value : List UInt8} :
    IsField name line value ↔ ∃ field v, splitColon line = some (field, v) ∧
      eqCi (field.rdropWhile isBlank) (ascii name) = true ∧ trim v = value := by
  constructor
  · rintro ⟨field, gap, before, after, rfl, hfield, hgap, hbefore, hafter, hhead, hlast⟩
    have hplain := hname.of_eqCi hfield
    have hcolon : 58 ∉ field ++ gap := by
      intro hmem
      rcases List.mem_append.mp hmem with hmem | hmem
      · exact (hplain _ hmem).1 rfl
      · exact absurd (hgap _ hmem) (by decide)
    refine ⟨field ++ gap, before ++ value ++ after, splitColon_append hcolon _, ?_,
      trim_append hbefore hafter hhead hlast⟩
    rw [rdropWhile_append_of_all hgap, rdropWhile_of_getLast?]
    · exact hfield
    · exact fun c hc => (hplain c (List.mem_of_getLast? hc)).2.2.2
  · rintro ⟨field, v, hsplit, hfield, rfl⟩
    obtain ⟨before, after, hv, hbefore, hafter, hhead, hlast⟩ := trim_spec v
    refine ⟨field.rdropWhile isBlank, field.rtakeWhile isBlank, before, after, ?_, hfield,
      fun c hc => List.mem_rtakeWhile_imp hc, hbefore, hafter, hhead, hlast⟩
    rw [List.rdropWhile_append_rtakeWhile, ← hv]
    exact splitColon_some hsplit

theorem isField_of_split {name : String} (hname : PlainName (ascii name))
    {line field v value : List UInt8} (h : splitColon line = some (field, v)) :
    IsField name line value ↔
      eqCi (field.rdropWhile isBlank) (ascii name) = true ∧ trim v = value := by
  rw [isField_iff hname, h]
  constructor
  · rintro ⟨field', v', heq, hrest⟩
    obtain ⟨rfl, rfl⟩ := Prod.mk.inj (Option.some.inj heq)
    exact hrest
  · exact fun hrest => ⟨field, v, rfl, hrest⟩

theorem not_isField_of_split {name : String} (hname : PlainName (ascii name))
    {line value : List UInt8} (h : splitColon line = none) : ¬ IsField name line value := by
  rw [isField_iff hname, h]
  simp

/-! ## Codings -/

/-- One element of a list of codings names `chunked`. -/
def ElementChunked (e : List UInt8) : Prop :=
  ∃ gap coding rest, e = gap ++ coding ++ rest ∧ Blanks gap ∧
    eqCi coding (ascii "chunked") = true ∧ ∀ c ∈ rest.head?, c = 59 ∨ isBlank c = true

theorem namesChunked_iff {s : List UInt8} : NamesChunked s ↔ ∃ e ∈ s.splitOn 44, ElementChunked e :=
  Iff.rfl

theorem not_elementChunked_nil : ¬ ElementChunked [] := by
  rintro ⟨gap, coding, rest, h, -, hcoding, -⟩
  simp only [List.nil_eq, List.append_eq_nil_iff] at h
  rw [h.1.2] at hcoding
  exact absurd hcoding (by decide)

/-- A blank in front does not matter. -/
theorem elementChunked_blank {c : UInt8} (hc : isBlank c = true) {e : List UInt8} :
    ElementChunked (c :: e) ↔ ElementChunked e := by
  constructor
  · rintro ⟨gap, coding, rest, h, hgap, hcoding, hrest⟩
    cases gap with
    | cons d gap =>
      simp only [List.cons_append, List.cons.injEq] at h
      exact ⟨gap, coding, rest, h.2, fun x hx => hgap x (by simp [hx]), hcoding, hrest⟩
    | nil =>
      cases coding with
      | nil => exact absurd hcoding (by decide)
      | cons d coding =>
        simp only [List.nil_append, List.cons_append, List.cons.injEq] at h
        have hplain : PlainName (ascii "chunked") := by decide
        have hd := (hplain.of_eqCi hcoding d (by simp)).2.2.2
        rw [← h.1, hc] at hd
        exact Bool.noConfusion hd
  · rintro ⟨gap, coding, rest, rfl, hgap, hcoding, hrest⟩
    refine ⟨c :: gap, coding, rest, by simp, ?_, hcoding, hrest⟩
    intro x hx
    rcases List.mem_cons.mp hx with rfl | hx
    · exact hc
    · exact hgap x hx

/-- Without a blank in front, the coding is what stands before the first end. -/
theorem elementChunked_iff {e : List UInt8} (hhead : ∀ c ∈ e.head?, isBlank c = false)
    (hcomma : 44 ∉ e) :
    ElementChunked e ↔ eqCi (e.takeWhile (! isCodingEnd ·)) (ascii "chunked") = true := by
  constructor
  · rintro ⟨gap, coding, rest, rfl, hgap, hcoding, hrest⟩
    have hnil : gap = [] := by
      cases gap with
      | nil => rfl
      | cons d gap =>
        have := hhead d (by simp)
        rw [hgap d (by simp)] at this
        exact Bool.noConfusion this
    have hplain : PlainName (ascii "chunked") := by decide
    have hend : ∀ c ∈ coding, (! isCodingEnd c) = true := by
      intro c hc
      have := hplain.of_eqCi hcoding c hc
      simp [isCodingEnd, this]
    have hstop : rest.takeWhile (! isCodingEnd ·) = [] := by
      cases rest with
      | nil => rfl
      | cons c rest =>
        rw [List.takeWhile_cons_of_neg]
        rcases hrest c rfl with rfl | hc
        · decide
        · simp [isCodingEnd, hc]
    rw [hnil, List.nil_append, List.takeWhile_append_of_pos hend, hstop, List.append_nil]
    exact hcoding
  · intro h
    refine ⟨[], _, e.dropWhile (! isCodingEnd ·), ?_, by simp [Blanks], h, ?_⟩
    · rw [List.nil_append, List.takeWhile_append_dropWhile]
    · intro c hc
      have hce := dropWhile_head?_of hc
      have hne : c ≠ 44 := by
        rintro rfl
        exact hcomma (List.dropWhile_subset _ (List.mem_of_head? hc))
      simp only [isCodingEnd, hne, decide_false, Bool.false_or, Bool.not_eq_false', Bool.or_eq_true,
        decide_eq_true_eq] at hce
      exact hce

theorem not_namesChunked_nil : ¬ NamesChunked [] := by
  rintro ⟨e, he, h⟩
  rw [List.splitOn_nil, List.mem_singleton] at he
  subst he
  exact not_elementChunked_nil h

/-- The first element, and the rest from its comma on. -/
theorem namesChunked_split (s : List UInt8) :
    NamesChunked s ↔ ElementChunked (s.takeWhile (· ≠ 44)) ∨ NamesChunked (s.dropWhile (· ≠ 44)) := by
  have hs := List.takeWhile_append_dropWhile (p := fun c : UInt8 => decide (c ≠ 44)) (l := s)
  have hfirst : 44 ∉ s.takeWhile (· ≠ 44) := by
    intro hmem
    simpa using List.mem_takeWhile_imp hmem
  cases hd : s.dropWhile (· ≠ 44) with
  | nil =>
    rw [hd, List.append_nil] at hs
    rw [namesChunked_iff, hs, List.splitOn_eq_singleton (hs ▸ hfirst)]
    simp [not_namesChunked_nil]
  | cons c t =>
    obtain rfl : c = 44 := by
      have := dropWhile_head?_of (p := fun c : UInt8 => decide (c ≠ 44)) (l := s) (c := c)
        (by rw [hd]; rfl)
      simpa using this
    rw [hd] at hs
    have hnil : (44 :: t).splitOn 44 = [] :: t.splitOn 44 := by
      simpa using List.splitOn_append_cons_self_of_not_mem (List.not_mem_nil : (44 : UInt8) ∉ []) t
    rw [namesChunked_iff, namesChunked_iff, ← hs, List.splitOn_append_cons_self_of_not_mem hfirst,
      hnil, hs]
    simp [not_elementChunked_nil]

theorem namesChunked_comma {s : List UInt8} : NamesChunked (44 :: s) ↔ NamesChunked s := by
  have hnil : (44 :: s).splitOn 44 = [] :: s.splitOn 44 := by
    simpa using List.splitOn_append_cons_self_of_not_mem (List.not_mem_nil : (44 : UInt8) ∉ []) s
  rw [namesChunked_iff, namesChunked_iff, hnil]
  simp [not_elementChunked_nil]

theorem namesChunked_blank {c : UInt8} (hc : isBlank c = true) {s : List UInt8} :
    NamesChunked (c :: s) ↔ NamesChunked s := by
  have hne : c ≠ 44 := by
    rintro rfl
    exact absurd hc (by decide)
  rw [namesChunked_split (c :: s), namesChunked_split s, List.takeWhile_cons_of_pos (by simpa using hne),
    List.dropWhile_cons_of_pos (by simpa using hne), elementChunked_blank hc]

/-- Blanks and commas in front do not matter. -/
theorem namesChunked_dropWhile (s : List UInt8) :
    NamesChunked (s.dropWhile fun c => isBlank c || c = 44) ↔ NamesChunked s := by
  induction s with
  | nil => rfl
  | cons c s ih =>
    by_cases hc : isBlank c = true
    · rw [List.dropWhile_cons_of_pos (by simp [hc]), ih, namesChunked_blank hc]
    · by_cases h44 : c = 44
      · rw [List.dropWhile_cons_of_pos (by simp [h44]), ih, h44, namesChunked_comma]
      · rw [List.dropWhile_cons_of_neg (by simp [hc, h44])]

theorem ne_comma_of_coding {c : UInt8} (h : (! isCodingEnd c) = true) : c ≠ 44 := by
  rintro rfl
  exact absurd h (by decide)

/-- From the end of the coding the loop goes on to the comma. -/
theorem dropWhile_comma (s : List UInt8) :
    (s.drop (s.takeWhile (! isCodingEnd ·)).length).dropWhile (· ≠ 44) = s.dropWhile (· ≠ 44) := by
  have hs := List.takeWhile_append_dropWhile (p := fun c : UInt8 => ! isCodingEnd c) (l := s)
  rw [drop_length_takeWhile]
  conv_rhs => rw [← hs]
  rw [List.dropWhile_append_of_pos]
  intro c hc
  have hc := List.mem_takeWhile_imp (p := fun c : UInt8 => ! isCodingEnd c) hc
  simpa using ne_comma_of_coding hc

/-- A turn of the loop, from the start of an element on. -/
theorem namesChunked_element {s : List UInt8} (hhead : ∀ c ∈ s.head?, isBlank c = false) :
    NamesChunked s ↔ eqCi (s.takeWhile (! isCodingEnd ·)) (ascii "chunked") = true ∨
      NamesChunked ((s.drop (s.takeWhile (! isCodingEnd ·)).length).dropWhile (· ≠ 44)) := by
  -- the coding ends before the comma
  have hcoding : (s.takeWhile (· ≠ 44)).takeWhile (! isCodingEnd ·)
      = s.takeWhile (! isCodingEnd ·) := by
    rw [List.takeWhile_takeWhile]
    congr 1
    funext c
    by_cases hc : (! isCodingEnd c) = true
    · simp [hc, ne_comma_of_coding hc]
    · simp [hc]
  have hcomma : 44 ∉ s.takeWhile (· ≠ 44) := by
    intro hmem
    simpa using List.mem_takeWhile_imp hmem
  have hhead' : ∀ c ∈ (s.takeWhile (· ≠ 44)).head?, isBlank c = false := by
    intro c hc
    cases s with
    | nil => simp at hc
    | cons d s =>
      by_cases hd : d = 44
      · simp [hd] at hc
      · rw [List.takeWhile_cons_of_pos (by simpa using hd)] at hc
        exact hhead c hc
  rw [namesChunked_split, elementChunked_iff hhead' hcomma, hcoding, dropWhile_comma]

theorem chunkedLoop_iff : ∀ (fuel : ℕ) (s : List UInt8), s.length ≤ fuel →
    (chunkedLoop fuel s = true ↔ NamesChunked s) := by
  intro fuel
  induction fuel with
  | zero =>
    intro s hs
    obtain rfl : s = [] := List.length_eq_zero_iff.mp (by omega)
    simp [chunkedLoop, not_namesChunked_nil]
  | succ fuel ih =>
    intro s hs
    rw [chunkedLoop]
    split
    · next hnil => simp [hnil, not_namesChunked_nil]
    · next hne =>
      simp only
      have hhead : ∀ c ∈ (s.dropWhile fun c => isBlank c || c = 44).head?,
          (isBlank c || decide (c = 44)) = false :=
        fun c hc => dropWhile_head?_of (p := fun c => isBlank c || decide (c = 44)) hc
      have hshort : (s.dropWhile fun c => isBlank c || c = 44).length ≤ s.length :=
        (List.dropWhile_suffix _).length_le
      generalize hs' : (s.dropWhile fun c => isBlank c || c = 44) = s' at hhead hshort ⊢
      rw [← namesChunked_dropWhile s, hs',
        namesChunked_element (fun c hc => (Bool.or_eq_false_iff.mp (hhead c hc)).1)]
      -- a turn consumes a byte: the comma that it stops at is not the first byte
      have hfuel : ((s'.drop (s'.takeWhile (! isCodingEnd ·)).length).dropWhile (· ≠ 44)).length
          ≤ fuel := by
        rw [dropWhile_comma]
        cases s' with
        | nil => simp
        | cons c t =>
          have hc : c ≠ 44 := by simpa using (Bool.or_eq_false_iff.mp (hhead c rfl)).2
          rw [List.dropWhile_cons_of_pos (by simpa using hc)]
          have := (List.dropWhile_suffix (l := t) fun c : UInt8 => decide (c ≠ 44)).length_le
          simp only [List.length_cons] at hshort
          omega
      split
      · next h => simp [h]
      · next h =>
        rw [ih _ hfuel]
        simp [h]

/-- **`value_has_chunked` decides whether a list of codings names `chunked`.** -/
theorem valueHasChunked_iff (s : List UInt8) : valueHasChunked s = true ↔ NamesChunked s :=
  chunkedLoop_iff s.length s le_rfl

/-! ## Numbers and lines -/

theorem decDigit_of_blank {c : UInt8} (h : isBlank c = true) : decDigit c = none := by
  unfold isBlank at h
  simp only [Bool.or_eq_true, decide_eq_true_eq] at h
  rcases h with rfl | rfl <;> decide

theorem parseDec_numeral {arch : Arch} {text : List UInt8} {n : ℕ}
    (h : IsNumeral decDigit 10 text n) (hn : n ≤ sizeMax arch) : parseDec arch text = some n := by
  have hhead : ∀ c ∈ text.head?, isBlank c = false := by
    intro c hc
    obtain ⟨-, ds, hds, -⟩ := h
    by_contra hb
    rw [Bool.not_eq_false] at hb
    have hmem : decDigit c ∈ ds.map some := hds ▸ List.mem_map_of_mem (List.mem_of_head? hc)
    rw [decDigit_of_blank hb] at hmem
    simp at hmem
  have hnum := takeNumber_numeral [] (by norm_num) h hn (by simp)
  rw [List.append_nil] at hnum
  unfold parseDec
  rw [dropWhile_of_head? hhead, hnum]
  have hlen : text.length ≠ 0 := fun hz => h.1 (List.length_eq_zero_iff.mp hz)
  simp [hlen]

/-- **One turn of the loop over the fields.** -/
theorem scanField_spec {arch : Arch} {n : ℕ} (hn : n ≤ sizeMax arch) {f : Framing} {line : List UInt8}
    (hlen : ∀ v, IsField "Content-Length" line v → IsNumeral decDigit 10 v n)
    (hf : f.contentLen = none ∨ f.contentLen = some n) :
    ∃ g, scanField arch f line = some g ∧ (g.contentLen = none ∨ g.contentLen = some n) ∧
      (g.chunked = true ↔
        f.chunked = true ∨ ∃ v, IsField "Transfer-Encoding" line v ∧ NamesChunked v) ∧
      (g.contentLen = some n ↔ f.contentLen = some n ∨ ∃ v, IsField "Content-Length" line v) := by
  have hte : PlainName (ascii "Transfer-Encoding") := by decide
  have hcl : PlainName (ascii "Content-Length") := by decide
  unfold scanField
  cases hsplit : splitColon line with
  | none =>
    refine ⟨f, rfl, hf, ?_, ?_⟩
    · simp [not_isField_of_split hte hsplit]
    · simp [not_isField_of_split hcl hsplit]
  | some fv =>
    obtain ⟨field, v⟩ := fv
    simp only [isField_of_split hte hsplit, isField_of_split hcl hsplit] at hlen ⊢
    split
    · next hname =>
      -- the two names differ
      have hother : eqCi (field.rdropWhile isBlank) (ascii "Content-Length") = false := by
        have hmap : (field.rdropWhile isBlank).map lowerAscii
            = (ascii "Transfer-Encoding").map lowerAscii := by simpa [eqCi] using hname
        unfold eqCi
        rw [hmap]
        decide
      refine ⟨_, rfl, hf, ?_, by simp [hother]⟩
      simp [hname, valueHasChunked_iff]
    · next hname =>
      split
      · next hlenName =>
        rw [parseDec_numeral (hlen _ ⟨hlenName, rfl⟩) hn]
        have hagree : f.contentLen.any (fun x => decide (x ≠ n)) = false := by
          rcases hf with hf | hf <;> simp [hf]
        simp only [hagree, Bool.false_eq_true, if_false]
        exact ⟨_, rfl, .inr rfl, by simp [hname], by simp [hlenName]⟩
      · next hlenName =>
        exact ⟨f, rfl, hf, by simp [hname], by simp [hlenName]⟩

/-- **The loop over the fields finds the framing that they announce.** -/
theorem scanFields_spec {arch : Arch} {n : ℕ} (hn : n ≤ sizeMax arch) :
    ∀ (fields : List Line) (f : Framing), ContentLengthIs fields n →
      (f.contentLen = none ∨ f.contentLen = some n) →
      ∃ g, (fields.map Line.bytes).foldlM (scanField arch) f = some g ∧
        (g.contentLen = none ∨ g.contentLen = some n) ∧
        (g.chunked = true ↔ f.chunked = true ∨ IsChunked fields) ∧
        (g.contentLen = some n ↔ f.contentLen = some n ∨ HasContentLength fields) := by
  intro fields
  induction fields with
  | nil =>
    intro f _ hf
    exact ⟨f, rfl, hf, by simp [IsChunked], by simp [HasContentLength]⟩
  | cons l fields ih =>
    intro f hlen hf
    obtain ⟨g, hg, hgf, hgc, hgl⟩ := scanField_spec hn (hlen l (by simp)) hf
    obtain ⟨k, hk, hkf, hkc, hkl⟩ := ih g (fun l' hl' => hlen l' (by simp [hl'])) hgf
    refine ⟨k, ?_, hkf, ?_, ?_⟩
    · rw [List.map_cons, List.foldlM_cons, hg]
      exact hk
    · rw [hkc, hgc, or_assoc]
      simp [IsChunked]
    · rw [hkl, hgl, or_assoc]
      simp [HasContentLength]

end Orion.Http
