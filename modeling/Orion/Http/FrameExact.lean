import Orion.Http.Fields

/-!
# Frames are recognised exactly

`http_frame_complete` says "incomplete" on every proper prefix of a well-formed response and
"complete" on the response with any bytes behind it.  The header part rests on the first blank line
(`headerBoundary_head`), the chunked part on an induction over the chunks: a cut inside a line, in
the data or at a line end leaves the loop waiting for more.
-/

namespace Orion.Http

/-! ## Prefixes -/

/-- A prefix of `a ++ b` ends inside `a` or goes on into `b`. -/
theorem prefix_append_cases {α : Type*} {p a b : List α} (h : p <+: a ++ b) :
    (p <+: a ∧ p ≠ a) ∨ ∃ q, p = a ++ q ∧ q <+: b := by
  rcases Nat.lt_or_ge p.length a.length with hlt | hge
  · left
    refine ⟨List.prefix_of_prefix_length_le h (List.prefix_append a b) hlt.le, ?_⟩
    rintro rfl
    exact lt_irrefl _ hlt
  · right
    obtain ⟨q, rfl⟩ := List.prefix_of_prefix_length_le (List.prefix_append a b) h hge
    exact ⟨q, rfl, (List.prefix_append_right_inj a).mp h⟩

/-! ## Lines -/

theorem OneLine.not_mem {s : List UInt8} (h : OneLine s) : cr ∉ s ∧ lf ∉ s :=
  ⟨fun hm => (h cr hm).1 rfl, fun hm => (h lf hm).2 rfl⟩

theorem stripCr_append_cr (l : List UInt8) : stripCr (l ++ [cr]) = l := by simp [stripCr]

theorem stripCr_of_oneLine {l : List UInt8} (h : OneLine l) : stripCr l = l := by
  unfold stripCr
  rw [if_neg]
  intro hlast
  exact h.not_mem.1 (List.mem_of_getLast? hlast)

theorem takeLine_line {l : List UInt8} (h : OneLine l) (rest : List UInt8) :
    takeLine (l ++ crlf ++ rest) = some (l, rest) := by
  have hall : ∀ c ∈ l ++ [cr], decide (c ≠ lf) = true := by
    intro c hc
    rcases List.mem_append.mp hc with hc | hc
    · simpa using (h c hc).2
    · rw [List.mem_singleton.mp hc]
      decide
  have htext : l ++ crlf ++ rest = (l ++ [cr]) ++ lf :: rest := by simp [crlf]
  unfold takeLine
  rw [htext, List.dropWhile_append_of_pos hall, List.takeWhile_append_of_pos hall]
  simp [stripCr_append_cr]

/-- A cut inside a line or its line end leaves no line. -/
theorem takeLine_cut {l p : List UInt8} (h : OneLine l) (hp : p <+: l ++ crlf) (hne : p ≠ l ++ crlf) :
    takeLine p = none := by
  have hp' : p <+: l ++ [cr] := by
    have htext : l ++ crlf = (l ++ [cr]) ++ [lf] := by simp [crlf]
    rw [htext] at hp hne
    rcases List.prefix_concat_iff.mp hp with heq | hpre
    · exact absurd heq hne
    · exact hpre
  have hall : ∀ c ∈ p, decide (c ≠ lf) = true := by
    intro c hc
    rcases List.mem_append.mp (hp'.subset hc) with hc | hc
    · simpa using (h c hc).2
    · rw [List.mem_singleton.mp hc]
      decide
  unfold takeLine
  rw [List.dropWhile_eq_nil_iff.mpr hall]

/-! ## The header -/

/-- Lines of a header: none is empty. -/
def HeadLines (ls : List (List UInt8)) : Prop := ∀ l ∈ ls, l ≠ [] ∧ OneLine l

/-- A joined list of lines starts with a byte of its first line. -/
theorem intercalate_head {l : List UInt8} {ls : List (List UInt8)} (h : HeadLines (l :: ls))
    (t : List UInt8) : ∃ c r, crlf.intercalate (l :: ls) ++ t = c :: r ∧ c ≠ cr ∧ c ≠ lf := by
  obtain ⟨hne, hone⟩ := h l (by simp)
  cases l with
  | nil => exact absurd rfl hne
  | cons c l =>
    have hc := hone c (by simp)
    cases ls with
    | nil => exact ⟨c, l ++ t, by rw [List.intercalate_singleton, List.cons_append], hc⟩
    | cons l' ls =>
      refine ⟨c, l ++ crlf ++ crlf.intercalate (l' :: ls) ++ t, ?_, hc⟩
      rw [List.intercalate_cons_cons]
      rfl

theorem findSub_blankLine : ∀ (ls : List (List UInt8)) (l : List UInt8), HeadLines (l :: ls) →
    findSub [cr, lf, cr, lf] (crlf.intercalate (l :: ls) ++ (crlf ++ crlf))
      = some (crlf.intercalate (l :: ls)).length := by
  intro ls
  induction ls with
  | nil =>
    intro l h
    rw [List.intercalate_singleton, findSub_skip (h l (by simp)).2.not_mem.1]
    simp [findSub, crlf, List.isPrefixOf]
  | cons l' ls ih =>
    intro l h
    have hrest : HeadLines (l' :: ls) := fun x hx => h x (by simp [hx])
    obtain ⟨c, r, htext, hcr, -⟩ := intercalate_head hrest (crlf ++ crlf)
    have hih := ih l' hrest
    rw [htext] at hih
    rw [List.intercalate_cons_cons, List.append_assoc, List.append_assoc,
      findSub_skip (h l (by simp)).2.not_mem.1, htext]
    have hstep : findSub [cr, lf, cr, lf] (crlf ++ c :: r)
        = (findSub [cr, lf, cr, lf] (c :: r)).map (· + 2) := by
      have h1 : ([cr, lf, cr, lf].isPrefixOf (cr :: lf :: c :: r)) = false := by
        simp [List.isPrefixOf, Ne.symm hcr]
      have h2 : ([cr, lf, cr, lf].isPrefixOf (lf :: c :: r)) = false := by
        simp [List.isPrefixOf, show cr ≠ lf by decide]
      show findSub _ (cr :: lf :: c :: r) = _
      rw [findSub, h1, findSub, h2]
      simp only [Bool.false_eq_true, if_false, Option.map_map]
      rfl
    rw [hstep, hih]
    simp only [Option.map_some, List.length_append]
    simp [crlf]
    omega

/-- There is no line feed behind a line feed. -/
theorem findSub_lflf : ∀ (ls : List (List UInt8)) (l : List UInt8), HeadLines (l :: ls) →
    findSub [lf, lf] (crlf.intercalate (l :: ls) ++ (crlf ++ crlf)) = none := by
  intro ls
  induction ls with
  | nil =>
    intro l h
    rw [List.intercalate_singleton, findSub_skip (h l (by simp)).2.not_mem.2,
      show findSub [lf, lf] (crlf ++ crlf) = none by decide]
    rfl
  | cons l' ls ih =>
    intro l h
    have hrest : HeadLines (l' :: ls) := fun x hx => h x (by simp [hx])
    obtain ⟨c, r, htext, -, hlf⟩ := intercalate_head hrest (crlf ++ crlf)
    have hih := ih l' hrest
    rw [htext] at hih
    rw [List.intercalate_cons_cons, List.append_assoc, List.append_assoc,
      findSub_skip (h l (by simp)).2.not_mem.2, htext]
    have h1 : ([lf, lf].isPrefixOf (cr :: lf :: c :: r)) = false := by
      simp [List.isPrefixOf, show lf ≠ cr by decide]
    have h2 : ([lf, lf].isPrefixOf (lf :: c :: r)) = false := by
      simp [List.isPrefixOf, Ne.symm hlf]
    show (findSub _ (cr :: lf :: c :: r)).map _ = none
    rw [findSub, h1, findSub, h2, hih]
    rfl

section

variable {ls : List (List UInt8)} {l : List UInt8}

/-- **The header ends at the blank line**, whatever follows it. -/
theorem headerBoundary_head (h : HeadLines (l :: ls)) (rest : List UInt8) :
    headerBoundary (crlf.intercalate (l :: ls) ++ (crlf ++ crlf) ++ rest)
      = some ⟨(crlf.intercalate (l :: ls)).length, (crlf.intercalate (l :: ls)).length + 4⟩ := by
  unfold headerBoundary
  rw [findSub_append (by simp) rest (findSub_blankLine ls l h)]

/-- **Before it is complete, there is no header.** -/
theorem headerBoundary_cut (h : HeadLines (l :: ls)) {p : List UInt8}
    (hp : p <+: crlf.intercalate (l :: ls) ++ (crlf ++ crlf))
    (hne : p ≠ crlf.intercalate (l :: ls) ++ (crlf ++ crlf)) : headerBoundary p = none := by
  obtain ⟨t, ht⟩ := hp
  have hfour : findSub [cr, lf, cr, lf] p = none := by
    cases hf : findSub [cr, lf, cr, lf] p with
    | none => rfl
    | some i =>
      -- the occurrence would also be the first one in the whole header, but ends too early
      have hle := findSub_le hf
      have hfull := findSub_append (by simp) t hf
      rw [ht, findSub_blankLine ls l h] at hfull
      have hlen := congrArg List.length ht
      have htpos : t ≠ [] := by
        rintro rfl
        exact hne (by simpa using ht)
      have := List.length_pos_of_ne_nil htpos
      simp only [List.length_append, crlf, List.length_cons, List.length_nil, Option.some.injEq] at *
      omega
  have htwo : findSub [lf, lf] p = none := by
    cases hf : findSub [lf, lf] p with
    | none => rfl
    | some i =>
      have hfull := findSub_append (by simp) t hf
      rw [ht, findSub_lflf ls l h] at hfull
      simp at hfull
  unfold headerBoundary
  rw [hfour, htwo]

/-- The lines of the header. -/
theorem splitLines_intercalate : ∀ (ls : List (List UInt8)) (l : List UInt8), HeadLines (l :: ls) →
    (splitLines (crlf.intercalate (l :: ls))).map stripCr = l :: ls := by
  intro ls
  induction ls with
  | nil =>
    intro l h
    obtain ⟨hne, hone⟩ := h l (by simp)
    rw [List.intercalate_singleton, splitLines_single hone.not_mem.2 hne, List.map_singleton,
      stripCr_of_oneLine hone]
  | cons l' ls ih =>
    intro l h
    have hone := (h l (by simp)).2
    have htext : crlf.intercalate (l :: l' :: ls)
        = (l ++ [cr]) ++ lf :: crlf.intercalate (l' :: ls) := by
      rw [List.intercalate_cons_cons]
      simp [crlf]
    have hlf : lf ∉ l ++ [cr] := by
      intro hm
      rcases List.mem_append.mp hm with hm | hm
      · exact hone.not_mem.2 hm
      · exact absurd (List.mem_singleton.mp hm) (by decide)
    rw [htext, splitLines_append hlf, List.map_cons, stripCr_append_cr,
      ih l' fun x hx => h x (by simp [hx])]

end

theorem parseStatus_status (l : StatusLine) (rest : List UInt8) :
    parseStatus (l.bytes ++ rest) = some l.code := by
  have hver : ∀ c ∈ l.version, decide (c ≠ 32 ∧ c ≠ cr ∧ c ≠ lf) = true := by
    intro c hc
    have := l.version_ok.1 c hc
    have hne : c ≠ 32 := fun heq => l.version_ok.2 (heq ▸ hc)
    simp [hne, this]
  have hdigit : l.hundreds ≠ 32 := by
    intro heq
    have := l.digits.1
    rw [heq] at this
    exact absurd this (by decide)
  have htext : l.bytes ++ rest
      = l.version ++ (32 :: (List.replicate l.gap 32 ++
        (l.hundreds :: l.tens :: l.ones :: (l.reason ++ rest)))) := by
    simp [StatusLine.bytes]
  unfold parseStatus
  rw [htext, List.dropWhile_append_of_pos hver, List.dropWhile_cons_of_neg (by simp),
    List.dropWhile_cons_of_pos (by simp), List.dropWhile_append_of_pos (by simp),
    List.dropWhile_cons_of_neg (by simpa using hdigit)]
  simp [l.digits, StatusLine.code]

/-! ## Trailers -/

theorem linesBytes_cons (l : Line) (ls : List Line) :
    linesBytes (l :: ls) = (l.bytes ++ crlf) ++ linesBytes ls := by
  simp [linesBytes]

theorem trailerComplete_append : ∀ (lines : List Line) (t : List UInt8) (fuel : ℕ),
    (linesBytes lines ++ t).length ≤ fuel → trailerComplete fuel (linesBytes lines ++ t) = .complete := by
  intro lines
  induction lines with
  | nil =>
    intro t fuel hfuel
    cases fuel with
    | zero => simp [linesBytes, crlf] at hfuel
    | succ fuel =>
      have hline := takeLine_line (l := []) (by simp [OneLine]) t
      rw [List.nil_append] at hline
      rw [trailerComplete, show linesBytes [] ++ t = crlf ++ t from rfl, hline]
      rfl
  | cons l lines ih =>
    intro t fuel hfuel
    cases fuel with
    | zero => simp [linesBytes, crlf] at hfuel
    | succ fuel =>
      rw [linesBytes_cons, List.append_assoc] at hfuel ⊢
      rw [trailerComplete, takeLine_line l.oneLine]
      simp only [if_neg l.nonempty]
      refine ih t fuel ?_
      simp only [List.length_append, crlf, List.length_cons, List.length_nil] at hfuel ⊢
      omega

theorem trailerComplete_cut : ∀ (lines : List Line) (fuel : ℕ) (p : List UInt8),
    p <+: linesBytes lines → p ≠ linesBytes lines → trailerComplete fuel p = .incomplete := by
  intro lines
  induction lines with
  | nil =>
    intro fuel p hp hne
    cases fuel with
    | zero => rfl
    | succ fuel => rw [trailerComplete, takeLine_cut (l := []) (by simp [OneLine]) hp hne]
  | cons l lines ih =>
    intro fuel p hp hne
    cases fuel with
    | zero => rfl
    | succ fuel =>
      rw [linesBytes_cons] at hp hne
      rcases prefix_append_cases hp with ⟨hcut, hcutne⟩ | ⟨q, rfl, hq⟩
      · rw [trailerComplete, takeLine_cut l.oneLine hcut hcutne]
      · rw [trailerComplete, takeLine_line l.oneLine]
        simp only [if_neg l.nonempty]
        exact ih fuel q hq fun heq => hne (by rw [heq])

/-! ## Chunks -/

theorem hexDigit_of_blank {c : UInt8} (h : isBlank c = true) : hexDigit c = none := by
  unfold isBlank at h
  simp only [Bool.or_eq_true, decide_eq_true_eq] at h
  rcases h with rfl | rfl <;> decide

section

variable {n : ℕ} (l : SizeLine n)

theorem SizeLine.hex_of_mem {c : UInt8} (hc : c ∈ l.digits) : ∃ d, hexDigit c = some d := by
  obtain ⟨-, ds, hds, -⟩ := l.numeral
  have hmem : hexDigit c ∈ ds.map some := hds ▸ List.mem_map_of_mem hc
  obtain ⟨d, -, hd⟩ := List.mem_map.mp hmem
  exact ⟨d, hd.symm⟩

theorem SizeLine.oneLine_bytes : OneLine l.bytes := by
  intro c hc
  rcases List.mem_append.mp hc with hc | hc
  · obtain ⟨d, hd⟩ := l.hex_of_mem hc
    refine ⟨?_, ?_⟩
    · rintro rfl
      exact absurd hd (by simp [show hexDigit cr = none by decide])
    · rintro rfl
      exact absurd hd (by simp [show hexDigit lf = none by decide])
  · exact l.oneLine c hc

/-- **A size line gives its size**, with any extension. -/
theorem SizeLine.lineSize {arch : Arch} (hn : n ≤ sizeMax arch) : lineSize arch l.bytes = some n := by
  have hhead : ∀ c ∈ l.bytes.head?, isBlank c = false := by
    intro c hc
    cases hd : l.digits with
    | nil => exact absurd hd l.numeral.1
    | cons d ds =>
      rw [SizeLine.bytes, hd, List.cons_append, List.head?_cons, Option.mem_some_iff] at hc
      obtain ⟨v, hv⟩ := l.hex_of_mem (c := c) (by simp [hd, hc])
      by_contra hb
      rw [hexDigit_of_blank (Bool.not_eq_false _ ▸ hb)] at hv
      simp at hv
  have hext : ∀ c ∈ l.ext.head?, hexDigit c = none := by
    intro c hc
    rcases l.ext_ok with hnil | ⟨gap, e, hgap, hblank⟩
    · simp [hnil] at hc
    · cases gap with
      | nil =>
        rw [hgap] at hc
        obtain rfl : 59 = c := by simpa using hc
        decide
      | cons g gap =>
        rw [hgap] at hc
        obtain rfl : g = c := by simpa using hc
        exact hexDigit_of_blank (hblank g (by simp))
  have hsemi : (l.ext.dropWhile isBlank).head?.any (fun c => decide (c ≠ 59)) = false := by
    rcases l.ext_ok with hnil | ⟨gap, e, hgap, hblank⟩
    · simp [hnil]
    · rw [hgap, List.dropWhile_append_of_pos hblank, List.dropWhile_cons_of_neg (by decide)]
      simp
  have hlen : l.digits.length ≠ 0 := fun hz => l.numeral.1 (List.length_eq_zero_iff.mp hz)
  unfold Orion.Http.lineSize
  rw [dropWhile_of_head? hhead, SizeLine.bytes, takeNumber_numeral l.ext (by norm_num) l.numeral hn hext]
  simp only [hlen, hsemi, Bool.false_eq_true, or_self, if_false]

end

section

variable {arch : Arch} {last : SizeLine 0} {trailer : List Line}

theorem chunksBytes_cons (c : Chunk) (chunks : List Chunk) :
    chunksBytes (c :: chunks) last trailer
      = (c.size.bytes ++ crlf) ++ (c.data ++ (crlf ++ chunksBytes chunks last trailer)) := by
  simp [chunksBytes, Chunk.bytes]

theorem dataEnd_crlf (s : List UInt8) : dataEnd (crlf ++ s) = .ok s := by
  simp [dataEnd, crlf]

theorem dataEnd_cut {p : List UInt8} (hp : p <+: crlf) (hne : p ≠ crlf) :
    dataEnd p = .error .incomplete := by
  have hlen := hp.length_le
  match p with
  | [] => rfl
  | [c] =>
    obtain rfl : c = cr := by simpa [crlf] using hp
    rfl
  | c :: d :: p => exact absurd (hp.eq_of_length_le (by simp [crlf])) hne

/-- One turn of the loop, behind the size line of a chunk. -/
theorem chunkedLines_chunk (c : Chunk) (hc : c.data.length ≤ sizeMax arch) (fuel : ℕ)
    (rest : List UInt8) :
    chunkedLines arch (fuel + 1) ((c.size.bytes ++ crlf) ++ rest)
      = if c.data.length > rest.length then .incomplete
        else match dataEnd (rest.drop c.data.length) with
          | .error frame => frame
          | .ok rest => chunkedLines arch fuel rest := by
  have hne : c.data.length ≠ 0 := fun hz => c.nonempty (List.length_eq_zero_iff.mp hz)
  rw [chunkedLines, takeLine_line c.size.oneLine_bytes]
  simp only [c.size.lineSize hc]
  exact if_neg hne

/-- The turn that finds the last size line. -/
theorem chunkedLines_last (fuel : ℕ) (rest : List UInt8) :
    chunkedLines arch (fuel + 1) ((last.bytes ++ crlf) ++ rest) = trailerComplete rest.length rest := by
  rw [chunkedLines, takeLine_line last.oneLine_bytes]
  simp only [last.lineSize (Nat.zero_le _), if_true]

theorem chunkedLines_append : ∀ (chunks : List Chunk) (t : List UInt8) (fuel : ℕ),
    (∀ c ∈ chunks, c.data.length ≤ sizeMax arch) →
    (chunksBytes chunks last trailer ++ t).length ≤ fuel →
    chunkedLines arch fuel (chunksBytes chunks last trailer ++ t) = .complete := by
  intro chunks
  induction chunks with
  | nil =>
    intro t fuel _ hfuel
    cases fuel with
    | zero => simp [chunksBytes, crlf] at hfuel
    | succ fuel =>
      rw [chunksBytes, List.flatMap_nil, List.nil_append, List.append_assoc, chunkedLines_last]
      exact trailerComplete_append trailer t _ le_rfl
  | cons c chunks ih =>
    intro t fuel hsize hfuel
    cases fuel with
    | zero => simp [chunksBytes_cons, crlf] at hfuel
    | succ fuel =>
      have htext : chunksBytes (c :: chunks) last trailer ++ t = (c.size.bytes ++ crlf) ++
          (c.data ++ (crlf ++ (chunksBytes chunks last trailer ++ t))) := by
        rw [chunksBytes_cons]
        simp only [List.append_assoc]
      rw [htext] at hfuel ⊢
      rw [chunkedLines_chunk c (hsize c (by simp)), if_neg (by simp), List.drop_left, dataEnd_crlf]
      refine ih t fuel (fun c' hc' => hsize c' (by simp [hc'])) ?_
      simp only [List.length_append, crlf, List.length_cons, List.length_nil] at hfuel ⊢
      omega

/-- **A chunked body that is cut anywhere is incomplete**: in a size line, in the data, at a line end
or in the trailer. -/
theorem chunkedLines_cut : ∀ (chunks : List Chunk) (fuel : ℕ) (p : List UInt8),
    (∀ c ∈ chunks, c.data.length ≤ sizeMax arch) →
    p <+: chunksBytes chunks last trailer → p ≠ chunksBytes chunks last trailer →
    chunkedLines arch fuel p = .incomplete := by
  intro chunks
  induction chunks with
  | nil =>
    intro fuel p _ hp hne
    cases fuel with
    | zero => rfl
    | succ fuel =>
      rw [chunksBytes, List.flatMap_nil, List.nil_append] at hp hne
      rcases prefix_append_cases hp with ⟨hcut, hcutne⟩ | ⟨q, rfl, hq⟩
      · rw [chunkedLines, takeLine_cut last.oneLine_bytes hcut hcutne]
      · rw [chunkedLines_last]
        exact trailerComplete_cut trailer _ q hq fun heq => hne (by rw [heq])
  | cons c chunks ih =>
    intro fuel p hsize hp hne
    cases fuel with
    | zero => rfl
    | succ fuel =>
      rw [chunksBytes_cons] at hp hne
      rcases prefix_append_cases hp with ⟨hcut, hcutne⟩ | ⟨q, rfl, hq⟩
      · -- in the size line
        rw [chunkedLines, takeLine_cut c.size.oneLine_bytes hcut hcutne]
      · rw [chunkedLines_chunk c (hsize c (by simp))]
        rcases prefix_append_cases hq with ⟨hcut, hcutne⟩ | ⟨r, rfl, hr⟩
        · -- in the data
          have hlt : q.length < c.data.length := by
            rcases Nat.lt_or_ge q.length c.data.length with hlt | hge
            · exact hlt
            · exact absurd (hcut.eq_of_length_le hge) hcutne
          rw [if_pos hlt]
        · rw [if_neg (by simp), List.drop_left]
          rcases prefix_append_cases hr with ⟨hcut, hcutne⟩ | ⟨r', rfl, hr'⟩
          · -- at the line end behind the data
            rw [dataEnd_cut hcut hcutne]
          · rw [dataEnd_crlf]
            exact ih fuel r' (fun c' hc' => hsize c' (by simp [hc'])) hr' fun heq => hne (by rw [heq])

end

/-! ## Messages -/

section

variable {arch : Arch} (m : Message)

theorem StatusLine.oneLine_bytes (l : StatusLine) : OneLine l.bytes := by
  have hdigit : ∀ c : UInt8, isDigit c = true → c ≠ cr ∧ c ≠ lf := by
    intro c hc
    refine ⟨?_, ?_⟩ <;> rintro rfl <;> exact absurd hc (by decide)
  intro c hc
  simp only [StatusLine.bytes, List.mem_append, List.mem_cons, List.mem_replicate] at hc
  rcases hc with hc | (rfl | ⟨-, rfl⟩) | rfl | rfl | rfl | hc
  · exact l.version_ok.1 c hc
  · decide
  · decide
  · exact hdigit _ l.digits.1
  · exact hdigit _ l.digits.2.1
  · exact hdigit _ l.digits.2.2
  · exact l.reason_ok c hc

theorem Message.headLines : HeadLines (m.status.bytes :: m.fields.map Line.bytes) := by
  intro l hl
  rcases List.mem_cons.mp hl with rfl | hl
  · exact ⟨by simp [StatusLine.bytes], m.status.oneLine_bytes⟩
  · obtain ⟨field, -, rfl⟩ := List.mem_map.mp hl
    exact ⟨field.nonempty, field.oneLine⟩

theorem Message.parseStatus : parseStatus m.headBytes = some m.status.code := by
  unfold Message.headBytes
  cases m.fields.map Line.bytes with
  | nil =>
    rw [List.intercalate_singleton]
    simpa using parseStatus_status m.status []
  | cons l ls => rw [List.intercalate_cons_cons, List.append_assoc, parseStatus_status]

theorem Message.scanHeader : scanHeader arch m.headBytes
    = (m.fields.map Line.bytes).foldlM (scanField arch) ⟨false, none⟩ := by
  unfold Orion.Http.scanHeader Message.headBytes scanFields
  rw [List.map_tail, splitLines_intercalate _ _ m.headLines, List.tail_cons]

theorem Message.take_head (rest : List UInt8) :
    (m.headBytes ++ (crlf ++ crlf) ++ rest).take m.headBytes.length = m.headBytes := by
  rw [List.append_assoc, List.take_left]

theorem Message.drop_head (rest : List UInt8) :
    (m.headBytes ++ (crlf ++ crlf) ++ rest).drop (m.headBytes.length + 4) = rest := by
  have hlen : (m.headBytes ++ (crlf ++ crlf)).length = m.headBytes.length + 4 := by simp [crlf]
  rw [← hlen, List.drop_left]

/-- What `http_frame_complete` says once the header is there and its fields have been read. -/
theorem frame_of_framing {f : Framing} (hf : scanHeader arch m.headBytes = some f)
    (rest : List UInt8) :
    httpFrameComplete arch (m.headBytes ++ (crlf ++ crlf) ++ rest) =
      if f.chunked then chunkedComplete arch rest
      else match f.contentLen with
        | none => .incomplete
        | some n =>
          if n > sizeMax arch - (m.headBytes.length + 4) then .malformed
          else if rest.length ≥ n then .complete
          else .incomplete := by
  have hcode : ¬ (m.status.code = 204 ∨ m.status.code = 304) := by
    rintro (h | h)
    · exact m.hasBody.1 h
    · exact m.hasBody.2 h
  have hbound : headerBoundary (m.headBytes ++ (crlf ++ crlf) ++ rest)
      = some ⟨m.headBytes.length, m.headBytes.length + 4⟩ := headerBoundary_head m.headLines rest
  have hlen : (m.headBytes ++ (crlf ++ crlf) ++ rest).length = m.headBytes.length + 4 + rest.length := by
    simp [crlf]
    omega
  unfold httpFrameComplete
  simp only [hbound, m.take_head, m.parseStatus, if_neg hcode, hf, m.drop_head, hlen]
  split
  · rfl
  · cases f.contentLen with
    | none => rfl
    | some n => simp only [ge_iff_le, Nat.add_le_add_iff_left]

/-- **With the header there, the bytes behind it decide.** -/
theorem frame_of_header (hm : m.Fits arch) (rest : List UInt8) :
    httpFrameComplete arch (m.headBytes ++ (crlf ++ crlf) ++ rest) =
      match m.body with
      | .sized bytes => if rest.length ≥ bytes.length then .complete else .incomplete
      | .chunked _ _ _ => chunkedComplete arch rest := by
  obtain ⟨hsize, n, hlenIs, hn⟩ := hm
  have hframed := m.framed
  have hbytes : m.headBytes.length + 4 + m.body.bytes.length ≤ sizeMax arch := by
    simp only [Message.bytes, crlf, List.length_append, List.length_cons, List.length_nil] at hsize
    omega
  cases hbody : m.body with
  | sized bytes =>
    rw [hbody] at hframed hbytes
    obtain ⟨hhas, hlen, hplain⟩ := hframed
    simp only [Body.bytes] at hbytes
    obtain ⟨f, hf, -, hchunked, hlenSome⟩ :=
      scanFields_spec (by omega : bytes.length ≤ sizeMax arch) m.fields ⟨false, none⟩ hlen (.inl rfl)
    rw [frame_of_framing m (m.scanHeader.trans hf)]
    have hc : f.chunked = false := by
      rw [← Bool.not_eq_true, hchunked]
      simpa using hplain
    rw [hc, hlenSome.mpr (.inr hhas)]
    simp only [Bool.false_eq_true, if_false]
    rw [if_neg (by omega)]
  | chunked chunks last trailer =>
    rw [hbody] at hframed
    obtain ⟨f, hf, -, hchunked, -⟩ := scanFields_spec hn m.fields ⟨false, none⟩ hlenIs (.inl rfl)
    rw [frame_of_framing m (m.scanHeader.trans hf), hchunked.mpr (.inr hframed.1)]
    rfl

/-- The chunks of a body that fits. -/
theorem chunk_le_sizeMax {chunks : List Chunk} {last : SizeLine 0} {trailer : List Line}
    (h : (chunksBytes chunks last trailer).length ≤ sizeMax arch) :
    ∀ c ∈ chunks, c.data.length ≤ sizeMax arch := by
  intro c hc
  have hsub : c.data.length ≤ (chunks.flatMap Chunk.bytes).length := by
    obtain ⟨before, after, rfl⟩ := List.append_of_mem hc
    simp [Chunk.bytes]
    omega
  have : (chunks.flatMap Chunk.bytes).length ≤ (chunksBytes chunks last trailer).length := by
    simp [chunksBytes]
  omega

/-- **The frame is complete from the end of the message on.** -/
theorem frame_append (hm : m.Fits arch) (t : List UInt8) :
    httpFrameComplete arch (m.bytes ++ t) = .complete := by
  have hbody : m.body.bytes.length ≤ sizeMax arch := by
    have := hm.1
    simp only [Message.bytes, List.length_append] at this
    omega
  rw [Message.bytes, List.append_assoc, frame_of_header m hm]
  cases hb : m.body with
  | sized bytes => simp [Body.bytes]
  | chunked chunks last trailer =>
    rw [hb] at hbody
    exact chunkedLines_append chunks t _ (chunk_le_sizeMax hbody) le_rfl

/-- **Before that it is incomplete.** -/
theorem frame_cut (hm : m.Fits arch) {p : List UInt8} (hp : p <+: m.bytes) (hne : p ≠ m.bytes) :
    httpFrameComplete arch p = .incomplete := by
  have hbody : m.body.bytes.length ≤ sizeMax arch := by
    have := hm.1
    simp only [Message.bytes, List.length_append] at this
    omega
  rw [Message.bytes] at hp hne
  rcases prefix_append_cases hp with ⟨hcut, hcutne⟩ | ⟨q, rfl, hq⟩
  · have hbound : headerBoundary p = none := headerBoundary_cut m.headLines hcut hcutne
    unfold httpFrameComplete
    rw [hbound]
  · have hqne : q ≠ m.body.bytes := fun heq => hne (by rw [heq])
    rw [frame_of_header m hm]
    cases hb : m.body with
    | sized bytes =>
      rw [hb] at hq hqne
      have hlt : q.length < bytes.length := by
        rcases Nat.lt_or_ge q.length bytes.length with hlt | hge
        · exact hlt
        · exact absurd (hq.eq_of_length_le hge) hqne
      simp only [ge_iff_le]
      rw [if_neg (by omega)]
    | chunked chunks last trailer =>
      rw [hb] at hq hqne hbody
      exact chunkedLines_cut chunks _ q (chunk_le_sizeMax hbody) hq hqne

/-! ## The read loop -/

section

variable {m} {cap : ℕ} {t : List UInt8} (hm : m.Fits arch)
include hm

theorem frame_take (t : List UInt8) (j : ℕ) :
    httpFrameComplete arch ((m.bytes ++ t).take j)
      = if j < m.bytes.length then .incomplete else .complete := by
  split
  · next hlt =>
    rw [List.take_append_of_le_length hlt.le]
    refine frame_cut m hm (List.take_prefix _ _) fun heq => ?_
    have := congrArg List.length heq
    rw [List.length_take] at this
    omega
  · next hge =>
    rw [List.take_append, List.take_of_length_le (Nat.le_of_not_lt hge)]
    exact frame_append m hm _

/-- **One read**: the loop goes on while the message is not complete, and else stops. -/
theorem readLoop_step (n : ℕ) (reads : List ℕ) {stream used : List UInt8}
    (hb : used ++ stream = m.bytes ++ t) (hcap : used.length + 1 < cap) :
    readLoop arch cap (n :: reads) stream used =
      if used.length + min n (cap - 1 - used.length) < m.bytes.length then
        readLoop arch cap reads (stream.drop (min n (cap - 1 - used.length)))
          ((m.bytes ++ t).take (used.length + min n (cap - 1 - used.length)))
      else .framed ((m.bytes ++ t).take (used.length + min n (cap - 1 - used.length))) := by
  have hused : used ++ stream.take (min n (cap - 1 - used.length))
      = (m.bytes ++ t).take (used.length + min n (cap - 1 - used.length)) := by
    rw [← hb, List.take_length_add_append]
  rw [readLoop, if_neg (by omega)]
  simp only [hused, frame_take hm]
  by_cases hlt : used.length + min n (cap - 1 - used.length) < m.bytes.length
  · simp only [if_pos hlt]
  · simp only [if_neg hlt]

/-- What a read that does not complete the message leaves. -/
theorem readLoop_continue {n : ℕ} (reads : List ℕ) {stream used : List UInt8}
    (hb : used ++ stream = m.bytes ++ t) (hn : used.length + n < m.bytes.length)
    (hcap : used.length + n < cap) (hroom : used.length + 1 < cap) :
    ∃ stream' used', used' ++ stream' = m.bytes ++ t ∧ used'.length = used.length + n ∧
      readLoop arch cap (n :: reads) stream used = readLoop arch cap reads stream' used' := by
  have hmin : min n (cap - 1 - used.length) = n := by omega
  refine ⟨stream.drop n, (m.bytes ++ t).take (used.length + n), ?_, ?_, ?_⟩
  · rw [← hb, List.take_length_add_append, List.append_assoc, List.take_append_drop]
  · rw [List.length_take, List.length_append]
    omega
  · rw [readLoop_step hm n reads hb hroom, hmin, if_pos hn]

/-- **The loop stops in the read that reaches the end of the message.** -/
theorem readLoop_framed (hfit : m.bytes.length < cap) (n : ℕ) (after : List ℕ) :
    ∀ (before : List ℕ) (stream used : List UInt8), used ++ stream = m.bytes ++ t →
      used.length + before.sum < m.bytes.length → m.bytes.length ≤ used.length + before.sum + n →
      readLoop arch cap (before ++ n :: after) stream used
        = .framed ((m.bytes ++ t).take (min (used.length + before.sum + n) (cap - 1))) := by
  intro before
  induction before with
  | nil =>
    intro stream used hb hlt hge
    simp only [List.sum_nil, Nat.add_zero] at hlt hge ⊢
    rw [List.nil_append, readLoop_step hm n after hb (by omega), if_neg (by omega)]
    congr 2
    omega
  | cons k before ih =>
    intro stream used hb hlt hge
    simp only [List.sum_cons] at hlt hge ⊢
    obtain ⟨stream', used', hb', hlen', hstep⟩ :=
      readLoop_continue hm (before ++ n :: after) hb (by omega)
        (by omega : used.length + k < cap) (by omega)
    rw [List.cons_append, hstep, ih stream' used' hb' (by omega) (by omega), hlen']
    congr 3
    omega

/-- **If the reads end before the message or the buffer does, the loop has all that was read.** -/
theorem readLoop_closed : ∀ (reads : List ℕ) (stream used : List UInt8),
    used ++ stream = m.bytes ++ t → used.length + reads.sum < m.bytes.length →
      used.length + reads.sum + 1 < cap →
      readLoop arch cap reads stream used
        = .closed ((m.bytes ++ t).take (used.length + reads.sum)) := by
  intro reads
  induction reads with
  | nil =>
    intro stream used hb hlt hcap
    simp only [List.sum_nil, Nat.add_zero] at hlt hcap ⊢
    rw [readLoop, if_neg (by omega), ← hb, List.take_left]
  | cons k reads ih =>
    intro stream used hb hlt hcap
    simp only [List.sum_cons] at hlt hcap ⊢
    obtain ⟨stream', used', hb', hlen', hstep⟩ :=
      readLoop_continue hm reads hb (by omega) (by omega : used.length + k < cap) (by omega)
    rw [hstep, ih stream' used' hb' (by omega) (by omega), hlen']
    congr 2
    omega

/-- **If the buffer ends before the message does, the response is too large.** -/
theorem readLoop_tooLarge (hfit : cap ≤ m.bytes.length) : ∀ (reads : List ℕ)
    (stream used : List UInt8), used ++ stream = m.bytes ++ t → used.length + reads.sum + 1 ≥ cap →
      readLoop arch cap reads stream used = .tooLarge := by
  intro reads
  induction reads with
  | nil =>
    intro stream used hb hcap
    simp only [List.sum_nil, Nat.add_zero] at hcap
    rw [readLoop, if_pos hcap]
  | cons k reads ih =>
    intro stream used hb hcap
    simp only [List.sum_cons] at hcap
    by_cases hfull : used.length + 1 ≥ cap
    · rw [readLoop, if_pos hfull]
    · rw [readLoop_step hm k reads hb (by omega), if_pos (by omega)]
      refine ih _ _ ?_ ?_
      · rw [← hb, List.take_length_add_append, List.append_assoc, List.take_append_drop]
      · have hlen : (m.bytes ++ t).length = m.bytes.length + t.length := List.length_append
        rw [List.length_take, hlen]
        omega

end

/-- **Streaming frame detection is exact**: on a well-formed response `http_frame_complete` says
"incomplete" before the last byte and "complete" from there on.  So however the stream is cut into
reads, the read loop stops in the read that reaches the last byte, with what that read took beyond
it; if the reads or the buffer end before, it stops there. -/
theorem http_frame_complete_exact (arch : Arch) (m : Message) (hm : m.Fits arch) :
    (∀ p, p <+: m.bytes → p ≠ m.bytes → httpFrameComplete arch p = .incomplete) ∧
    (∀ t, httpFrameComplete arch (m.bytes ++ t) = .complete) ∧
    ∀ (cap : ℕ) (t : List UInt8),
      (∀ before n after, m.bytes.length < cap → before.sum < m.bytes.length →
        m.bytes.length ≤ before.sum + n →
        readLoop arch cap (before ++ n :: after) (m.bytes ++ t) []
          = .framed (m.bytes ++ t.take (min (before.sum + n) (cap - 1) - m.bytes.length))) ∧
      (∀ reads : List ℕ, reads.sum < m.bytes.length → reads.sum + 1 < cap →
        readLoop arch cap reads (m.bytes ++ t) [] = .closed (m.bytes.take reads.sum)) ∧
      (∀ reads : List ℕ, cap ≤ m.bytes.length → cap ≤ reads.sum + 1 →
        readLoop arch cap reads (m.bytes ++ t) [] = .tooLarge) := by
  refine ⟨fun p hp hne => frame_cut m hm hp hne, frame_append m hm, fun cap t => ⟨?_, ?_, ?_⟩⟩
  · intro before n after hfit hlt hge
    rw [readLoop_framed hm hfit n after before (m.bytes ++ t) [] rfl (by simpa using hlt)
      (by simpa using hge), List.length_nil, Nat.zero_add, List.take_append,
      List.take_of_length_le (by omega)]
  · intro reads hlt hcap
    rw [readLoop_closed hm reads (m.bytes ++ t) [] rfl (by simpa using hlt) (by simpa using hcap),
      List.length_nil, Nat.zero_add, List.take_append_of_le_length hlt.le]
  · intro reads hfit hcap
    exact readLoop_tooLarge hm hfit reads (m.bytes ++ t) [] rfl (by simpa using hcap)

end

/-- The field of the response below. -/
def chunkedField : Line := ⟨ascii "Transfer-Encoding: chunked", by decide, by decide⟩

theorem chunkedField_noLength (n : ℕ) : ContentLengthIs [chunkedField] n := by
  intro l hl v hv
  rw [List.mem_singleton.mp hl] at hv
  have hsplit : splitColon chunkedField.bytes
      = some (ascii "Transfer-Encoding", ascii " chunked") := by decide
  rw [isField_of_split (by decide) hsplit] at hv
  exact absurd hv.1 (by decide)

/-- A chunked response with an extension and a trailer. -/
def chunkedOk : Message where
  status := ⟨ascii "HTTP/1.1", 0, 50, 48, 48, ascii " OK", by decide, by decide,
    by decide⟩
  fields := [chunkedField]
  body := .chunked
    [⟨ascii "hi", by decide,
      ⟨ascii "2", ascii ";x", ⟨by decide, [2], by decide, rfl⟩,
        .inr ⟨[], ascii "x", rfl, by simp [Blanks]⟩, by decide⟩⟩]
    ⟨ascii "0", [], ⟨by decide, [0], by decide, rfl⟩, .inl rfl, by simp [OneLine]⟩
    [⟨ascii "A: b", by decide, by decide⟩]
  hasBody := by decide
  framed := by
    refine ⟨⟨_, List.mem_singleton_self _, ascii "chunked", ?_, ?_⟩, 0, ?_⟩
    · exact (isField_iff (by decide)).mpr
        ⟨ascii "Transfer-Encoding", ascii " chunked", by decide, by decide, by decide⟩
    · exact (valueHasChunked_iff _).mp (by decide)
    · exact chunkedField_noLength 0

theorem http_frame_complete_exact_smoke :
    httpFrameComplete .x86_64 (chunkedOk.bytes ++ ascii "HTTP") = .complete ∧
      readLoop .x86_64 32768 [40, 20, 30] (chunkedOk.bytes ++ ascii "HTTP") []
        = .framed (chunkedOk.bytes ++ ascii "HTTP") := by
  have hexact := http_frame_complete_exact .x86_64 chunkedOk
    ⟨by decide, 0, chunkedField_noLength 0, by decide⟩
  exact ⟨hexact.2.1 _, (hexact.2.2 32768 (ascii "HTTP")).1 [40, 20] 30 [] (by decide) (by decide)
    (by decide)⟩

end Orion.Http
