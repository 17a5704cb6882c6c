import Orion.Http.Get

/-!
# Where the header ends

A header ends at the first blank line, which is `CR LF CR LF` or `LF LF`.  The code searches the whole
response for `CR LF CR LF` and only then for `LF LF`, so it finds the first blank line unless an
`LF LF` stands before the first `CR LF CR LF` (`headerBoundary_first_iff`).
-/

namespace Orion.Http

/-! ## Blank lines -/

def CrlfAt (b : List UInt8) (i : ℕ) : Prop := [cr, lf, cr, lf] <+: b.drop i

def LfAt (b : List UInt8) (i : ℕ) : Prop := [lf, lf] <+: b.drop i

/-- Header and body are parted by the blank line of either kind that comes first. -/
structure FirstBlankLine (b : List UInt8) (bd : Boundary) : Prop where
  blank : CrlfAt b bd.headEnd ∧ bd.bodyOff = bd.headEnd + 4 ∨ LfAt b bd.headEnd ∧ bd.bodyOff = bd.headEnd + 2
  earliest : ∀ j < bd.headEnd, ¬ CrlfAt b j ∧ ¬ LfAt b j

/-- The two kinds start with different bytes. -/
theorem CrlfAt.not_lfAt {b : List UInt8} {i : ℕ} (h : CrlfAt b i) : ¬ LfAt b i := by
  intro hlf
  obtain ⟨t, ht⟩ := h
  obtain ⟨u, hu⟩ := hlf
  rw [← ht] at hu
  exact absurd (List.cons.inj hu).1 (by decide)

theorem FirstBlankLine.unique {b : List UInt8} {bd bd' : Boundary} (h : FirstBlankLine b bd)
    (h' : FirstBlankLine b bd') : bd = bd' := by
  have hend : bd.headEnd = bd'.headEnd := by
    obtain hlt | heq | hgt := lt_trichotomy bd.headEnd bd'.headEnd
    · obtain ⟨hcrlf, hlf⟩ := h'.earliest _ hlt
      exact absurd h.blank (by tauto)
    · exact heq
    · obtain ⟨hcrlf, hlf⟩ := h.earliest _ hgt
      exact absurd h'.blank (by tauto)
  have hoff : bd.bodyOff = bd'.bodyOff := by
    obtain ⟨hat, hoff⟩ | ⟨hat, hoff⟩ := h.blank <;> obtain ⟨hat', hoff'⟩ | ⟨hat', hoff'⟩ := h'.blank
    · omega
    · exact absurd hat' (hend ▸ hat.not_lfAt)
    · exact absurd hat (hend ▸ hat'.not_lfAt)
    · omega
  calc bd = ⟨bd.headEnd, bd.bodyOff⟩ := rfl
    _ = ⟨bd'.headEnd, bd'.bodyOff⟩ := by rw [hend, hoff]

/-! ## The search -/

theorem headerBoundary_crlf {b : List UInt8} {i : ℕ} (h : findSub [cr, lf, cr, lf] b = some i) :
    headerBoundary b = some ⟨i, i + 4⟩ := by
  rw [headerBoundary, h]

theorem headerBoundary_lf {b : List UInt8} (h : findSub [cr, lf, cr, lf] b = none) :
    headerBoundary b = (findSub [lf, lf] b).map fun i => ⟨i, i + 2⟩ := by
  rw [headerBoundary, h]
  cases findSub [lf, lf] b with
  | none => rfl
  | some i => rfl

/-- The boundary is the first blank line. -/
def BoundaryIsFirst (b : List UInt8) : Prop := ∀ bd, headerBoundary b = some bd ↔ FirstBlankLine b bd

/-- There is only one first blank line, so it is enough that the search finds it. -/
theorem FirstBlankLine.boundaryIsFirst {b : List UInt8} {bd : Boundary} (h : FirstBlankLine b bd)
    (hbd : headerBoundary b = some bd) : BoundaryIsFirst b := by
  intro bd'
  rw [hbd]
  constructor
  · intro heq
    exact Option.some.inj heq ▸ h
  · intro h'
    exact congrArg some (h.unique h')

/-- **The header ends at the first blank line** exactly if no `LF LF` stands before the first
`CR LF CR LF` of the response. -/
theorem headerBoundary_first_iff (b : List UInt8) :
    BoundaryIsFirst b ↔ ∀ i, LfAt b i → (∃ j < i, CrlfAt b j) ∨ ∀ j, ¬ CrlfAt b j := by
  cases hcrlf : findSub [cr, lf, cr, lf] b with
  | some k =>
    obtain ⟨hat, hbefore⟩ := findSub_some hcrlf
    have hbd := headerBoundary_crlf hcrlf
    constructor
    · intro h i hlf
      have hfirst := (h _).mp hbd
      left
      refine ⟨k, ?_, hat⟩
      obtain hlt | heq | hgt := lt_trichotomy k i
      · exact hlt
      · exact absurd hlf (heq ▸ CrlfAt.not_lfAt hat)
      · exact absurd hlf (hfirst.earliest i hgt).2
    · intro h
      have hfirst : FirstBlankLine b ⟨k, k + 4⟩ := by
        refine ⟨.inl ⟨hat, rfl⟩, fun j hj => ⟨hbefore j hj, fun hlf => ?_⟩⟩
        obtain ⟨l, hl, hlat⟩ | hnone := h j hlf
        · exact hbefore l (by simp only at hj; omega) hlat
        · exact hnone k hat
      exact hfirst.boundaryIsFirst hbd
  | none =>
    have hno : ∀ j, ¬ CrlfAt b j := findSub_none (by simp) hcrlf
    have hbd := headerBoundary_lf hcrlf
    constructor
    · intro _ i _
      exact .inr hno
    · intro _
      cases hlf : findSub [lf, lf] b with
      | none =>
        have hnolf : ∀ j, ¬ LfAt b j := findSub_none (by simp) hlf
        rw [hlf] at hbd
        intro bd
        constructor
        · intro h
          rw [hbd] at h
          cases h
        · intro h
          obtain ⟨hat, -⟩ | ⟨hat, -⟩ := h.blank
          · exact absurd hat (hno _)
          · exact absurd hat (hnolf _)
      | some i =>
        obtain ⟨hat, hbefore⟩ := findSub_some hlf
        have hfirst : FirstBlankLine b ⟨i, i + 2⟩ :=
          ⟨.inr ⟨hat, rfl⟩, fun j hj => ⟨hno j, hbefore j hj⟩⟩
        rw [hlf] at hbd
        exact hfirst.boundaryIsFirst hbd

/-- A response of a server that ends lines with a line feed; its body is `Content-Length: 0`, an empty
line and `ok`, with `CR LF` line ends. -/
def lfServer : List UInt8 :=
  ascii "HTTP/1.0 200 OK" ++ [lf, lf] ++ ascii "Content-Length: 0" ++ [cr, lf, cr, lf] ++ ascii "ok"

/-- The first line of its body is read as a header, and the body is lost. -/
theorem lfServer_misread : ¬ BoundaryIsFirst lfServer ∧
    headerBoundary lfServer = some ⟨34, 38⟩ ∧
    httpResponse [] lfServer false 64 = .done (ascii "HTTP/1.0 200 OK") [] := by
  refine ⟨?_, by decide +kernel, by decide +kernel⟩
  intro h
  have hfirst := (h ⟨34, 38⟩).mp (by decide +kernel)
  exact (hfirst.earliest 15 (by norm_num)).2 (by unfold LfAt; decide +kernel)

end Orion.Http
