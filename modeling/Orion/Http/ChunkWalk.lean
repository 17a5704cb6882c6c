import Orion.Http.Frame

/-!
# Two decoders on one chunked body

`chunked_complete` and `decode_chunked` both walk over the chunks of a body.  A body that the first
one finds complete is a list of size lines with their data (`Walk`), and the second one decodes
exactly these data if every size line is plain, and nothing if one of them has a blank in it
(`Walk.decodeLoop`).
-/

namespace Orion.Http

/-- The size lines and the data of the chunks that `chunked_complete` walks over. -/
def chunkWalk (arch : Arch) : ℕ → List UInt8 → List (List UInt8 × List UInt8)
  | 0, _ => []
  | fuel + 1, s =>
    match takeLine s with
    | none => []
    | some (line, rest) =>
      match lineSize arch line with
      | none => []
      | some size =>
        if size = 0 then [(line, [])]
        else
          match dataEnd (rest.drop size) with
          | .error _ => []
          | .ok next => (line, rest.take size) :: chunkWalk arch fuel next

/-- A size line of hexadecimal digits and perhaps an extension, with no blank and no carriage return
in between. -/
def PlainLine (line : List UInt8) : Prop :=
  cr ∉ line ∧ ∀ c ∈ (line.dropWhile fun c => (hexDigit c).isSome).head?, c = 59

instance (line : List UInt8) : Decidable (PlainLine line) :=
  @instDecidableAnd _ _ _ (Option.decidableForallMem _)

/-! ## The walk -/

/-- A line feed, perhaps with a carriage return before it. -/
def IsEol (e : List UInt8) : Prop := e = [cr, lf] ∨ e = [lf]

/-- A complete chunked body with its size lines and data. -/
inductive Walk (arch : Arch) : List UInt8 → List (List UInt8 × List UInt8) → Prop
  | last {line e rest : List UInt8} (hline : lf ∉ line) (he : IsEol e)
      (hsize : lineSize arch line = some 0) : Walk arch (line ++ (e ++ rest)) [(line, [])]
  | chunk {line e data e' rest : List UInt8} {w : List (List UInt8 × List UInt8)} (hline : lf ∉ line)
      (he : IsEol e) (hsize : lineSize arch line = some data.length) (hdata : data ≠ [])
      (he' : IsEol e') (hrest : Walk arch rest w) :
      Walk arch (line ++ (e ++ (data ++ (e' ++ rest)))) ((line, data) :: w)

theorem takeLine_some {s line rest : List UInt8} (h : takeLine s = some (line, rest)) :
    lf ∉ line ∧ ∃ e, IsEol e ∧ s = line ++ (e ++ rest) := by
  have hs := List.takeWhile_append_dropWhile (p := fun c : UInt8 => decide (c ≠ lf)) (l := s)
  have hnot : lf ∉ s.takeWhile (fun c => decide (c ≠ lf)) := by
    intro hmem
    simpa using List.mem_takeWhile_imp hmem
  unfold takeLine at h
  cases hd : s.dropWhile (fun c => decide (c ≠ lf)) with
  | nil =>
    rw [hd] at h
    simp at h
  | cons c t =>
    obtain rfl : c = lf := by
      have := dropWhile_head?_of (p := fun c : UInt8 => decide (c ≠ lf)) (l := s) (c := c)
        (by rw [hd]; rfl)
      simpa using this
    rw [hd] at h hs
    simp only [Option.some.injEq, Prod.mk.injEq] at h
    obtain ⟨rfl, rfl⟩ := h
    unfold stripCr
    split
    · next hcr =>
      obtain ⟨l, hl⟩ := List.getLast?_eq_some_iff.mp hcr
      rw [hl] at hs hnot ⊢
      rw [List.dropLast_concat]
      refine ⟨fun hmem => hnot (by simp [hmem]), [cr, lf], .inl rfl, ?_⟩
      rw [← hs]
      simp
    · refine ⟨hnot, [lf], .inr rfl, ?_⟩
      rw [List.singleton_append, hs]

/-- The line end behind the data is there, or the frame is not complete. -/
theorem dataEnd_cases (s : List UInt8) :
    (∃ e rest, IsEol e ∧ s = e ++ rest ∧ dataEnd s = .ok rest) ∨
      ∃ frame, frame ≠ .complete ∧ dataEnd s = .error frame := by
  cases s with
  | nil => exact .inr ⟨.incomplete, by decide, rfl⟩
  | cons c s =>
    by_cases hcr : c = cr
    · cases s with
      | nil => exact .inr ⟨.incomplete, by decide, by simp [dataEnd, hcr]⟩
      | cons d s =>
        by_cases hlf : d = lf
        · exact .inl ⟨[cr, lf], s, .inl rfl, by simp [hcr, hlf], by simp [dataEnd, hcr, hlf]⟩
        · exact .inr ⟨.malformed, by decide, by simp [dataEnd, hcr, hlf]⟩
    · by_cases hlf : c = lf
      · have hne : lf ≠ cr := by decide
        exact .inl ⟨[lf], s, .inr rfl, by simp [hlf], by simp [dataEnd, hlf, hne]⟩
      · exact .inr ⟨.malformed, by decide, by simp [dataEnd, hcr, hlf]⟩

/-- **What `chunked_complete` finds complete is a walk.** -/
theorem walk_of_complete {arch : Arch} : ∀ (fuel : ℕ) (s : List UInt8),
    chunkedLines arch fuel s = .complete → Walk arch s (chunkWalk arch fuel s) := by
  intro fuel
  induction fuel with
  | zero =>
    intro s h
    simp [chunkedLines] at h
  | succ fuel ih =>
    intro s h
    rw [chunkedLines] at h
    rw [chunkWalk]
    cases hline : takeLine s with
    | none => simp [hline] at h
    | some lr =>
      obtain ⟨line, rest⟩ := lr
      obtain ⟨hlf, e, he, rfl⟩ := takeLine_some hline
      simp only [hline] at h ⊢
      cases hsize : lineSize arch line with
      | none => simp [hsize] at h
      | some size =>
        simp only [hsize] at h ⊢
        split at h
        · next hzero =>
          rw [if_pos hzero]
          exact .last hlf he (by rw [hsize, hzero])
        · next hzero =>
          rw [if_neg hzero]
          split at h
          · simp at h
          · next hle =>
            rcases dataEnd_cases (rest.drop size) with
              ⟨e', next, he', hdrop, hend⟩ | ⟨frame, hframe, hend⟩
            · simp only [hend] at h ⊢
              have hlen : (rest.take size).length = size := by
                rw [List.length_take]
                omega
              have hrest : rest = rest.take size ++ (e' ++ next) := by
                rw [← hdrop, List.take_append_drop]
              have hne : rest.take size ≠ [] := by
                intro hnil
                rw [hnil] at hlen
                exact hzero hlen.symm
              have := Walk.chunk hlf he (by rw [hsize, hlen]) hne he' (ih next h)
              rwa [← hrest] at this
            · rw [hend] at h
              exact absurd h hframe

/-! ## `decode_chunked` on a walk -/

section

variable {line e rest : List UInt8}

theorem IsEol.head? (he : IsEol e) (rest : List UInt8) : ∃ c t, e ++ rest = c :: t ∧ isLineEnd c = true := by
  rcases he with rfl | rfl
  · exact ⟨cr, lf :: rest, rfl, by decide⟩
  · exact ⟨lf, rest, rfl, by decide⟩

theorem skipLineEnd_eol (he : IsEol e) : skipLineEnd (e ++ rest) = rest := by
  rcases he with rfl | rfl
  · simp [skipLineEnd]
  · have hne : lf ≠ cr := by decide
    simp [skipLineEnd, hne]

theorem lineEnd_of_not_mem (hlf : lf ∉ line) (hcr : cr ∉ line) {c : UInt8} (hc : c ∈ line) :
    isLineEnd c = false := by
  have h1 : c ≠ cr := fun heq => hcr (heq ▸ hc)
  have h2 : c ≠ lf := fun heq => hlf (heq ▸ hc)
  simp [isLineEnd, h1, h2]

/-- On a plain size line `decode_chunked` reads the size that `chunked_complete` reads. -/
theorem chunkSize_plain {arch : Arch} {size : ℕ} (hline : lf ∉ line) (hplain : PlainLine line)
    (he : IsEol e) (hsize : lineSize arch line = some size) (hle : size ≤ 0x100000) :
    chunkSize (line ++ (e ++ rest)) = some (size, e ++ rest) := by
  obtain ⟨hcr, hsemi⟩ := hplain
  obtain ⟨d, t, hend, hd⟩ := he.head? rest
  have hhex : hexDigit d = none := by
    simp only [isLineEnd, Bool.or_eq_true, decide_eq_true_eq] at hd
    rcases hd with rfl | rfl <;> decide
  -- a blank in front would stand where the semicolon has to be
  have hblank : line.dropWhile isBlank = line := by
    refine dropWhile_of_head? fun c hc => ?_
    by_contra hb
    rw [Bool.not_eq_false] at hb
    have hnot : (hexDigit c).isSome = false := by
      unfold isBlank at hb
      simp only [Bool.or_eq_true, decide_eq_true_eq] at hb
      rcases hb with rfl | rfl <;> decide
    have hdrop : line.dropWhile (fun c => (hexDigit c).isSome) = line := by
      refine dropWhile_of_head? fun c' hc' => ?_
      rw [Option.mem_unique hc' hc]
      exact hnot
    rw [hdrop] at hsemi
    rw [hsemi c hc] at hb
    exact absurd hb (by decide)
  unfold lineSize at hsize
  rw [hblank] at hsize
  cases hnum : takeNumber hexDigit 16 (sizeMax arch) line 0 0 with
  | none => simp [hnum] at hsize
  | some vnr =>
    obtain ⟨v, n, r⟩ := vnr
    simp only [hnum] at hsize
    split at hsize
    · simp at hsize
    · next hok =>
      simp only [not_or] at hok
      obtain rfl : v = size := Option.some.inj hsize
      have hr := (takeNumber_spec (by norm_num) line 0 0 hnum).1
      have htake : takeNumber hexDigit 16 0x100000 (line ++ (e ++ rest)) 0 0
          = some (v, n, r ++ (e ++ rest)) := by
        refine takeNumber_append line 0 0 (takeNumber_limit (by norm_num) line 0 0 hnum hle) ?_
        intro _ c hc
        rw [hend] at hc
        obtain rfl : d = c := by simpa using hc
        exact hhex
      -- the extension, if there is one, is skipped up to the line end
      have hskip : (if (r ++ (e ++ rest)).head? = some 59
          then (r ++ (e ++ rest)).dropWhile (! isLineEnd ·) else r ++ (e ++ rest)) = e ++ rest := by
        cases hr' : r with
        | nil =>
          have hne : d ≠ 59 := by
            rintro rfl
            exact absurd hd (by decide)
          rw [List.nil_append, hend, List.head?_cons, if_neg (by simpa using hne)]
        | cons c r' =>
          have hall : ∀ x ∈ r, (! isLineEnd x) = true := by
            intro x hx
            rw [hr] at hx
            rw [lineEnd_of_not_mem hline hcr (List.dropWhile_subset _ hx)]
            rfl
          have hc : c = 59 := hsemi c (by rw [← hr, hr']; rfl)
          rw [← hr', if_pos (by rw [hr', hc]; rfl), List.dropWhile_append_of_pos hall, hend,
            List.dropWhile_cons_of_neg (by simp [hd])]
      unfold chunkSize
      simp only [htake, hskip]
      rw [if_neg]
      rw [hend, List.head?_cons]
      simp [hok.1, hd]

/-- A size line with a blank in it is malformed for `decode_chunked`. -/
theorem chunkSize_not_plain (hline : lf ∉ line) (hcr : cr ∉ line) (hplain : ¬ PlainLine line)
    (rest : List UInt8) : chunkSize (line ++ rest) = none := by
  have hstop : ∃ c r, line.dropWhile (fun c => (hexDigit c).isSome) = c :: r ∧ c ≠ 59 := by
    cases hd : line.dropWhile (fun c => (hexDigit c).isSome) with
    | nil => exact absurd ⟨hcr, by simp [hd]⟩ hplain
    | cons c r =>
      refine ⟨c, r, rfl, ?_⟩
      rintro rfl
      exact hplain ⟨hcr, by simp [hd]⟩
  obtain ⟨c, r, hdrop, hc⟩ := hstop
  have hmem : c ∈ line := List.dropWhile_subset _ (by rw [hdrop]; simp)
  unfold chunkSize
  cases hnum : takeNumber hexDigit 16 0x100000 (line ++ rest) 0 0 with
  | none => rfl
  | some vnr =>
    obtain ⟨v, n, t⟩ := vnr
    have ht := (takeNumber_spec (by norm_num) _ 0 0 hnum).1
    rw [List.dropWhile_append, hdrop] at ht
    simp only [List.isEmpty_cons, Bool.false_eq_true, if_false, List.cons_append] at ht
    simp only [ht, List.head?_cons, Option.some.injEq, hc, if_false]
    rw [if_pos]
    right
    simp [lineEnd_of_not_mem hline hcr hmem]

end

/-- The data of a walk. -/
def walkData (w : List (List UInt8 × List UInt8)) : List UInt8 := w.flatMap (·.2)

theorem walkData_cons (c : List UInt8 × List UInt8) (w : List (List UInt8 × List UInt8)) :
    walkData (c :: w) = c.2 ++ walkData w := List.flatMap_cons

section

variable {arch : Arch} {s : List UInt8} {w : List (List UInt8 × List UInt8)}

/-- **The loop of `decode_chunked` on a complete body without carriage returns in its size lines**:
the data, cut to the buffer, if every size line is plain, and else nothing. -/
theorem Walk.decodeLoop {cap : ℕ} (h : Walk arch s w) (hcr : ∀ c ∈ w, cr ∉ c.1) :
    ∀ (fuel : ℕ) (out : List UInt8), s.length ≤ fuel → s.length ≤ 0x100000 → out.length ≤ cap - 1 →
      decodeLoop cap fuel s out =
        if ∀ c ∈ w, PlainLine c.1 then out ++ (walkData w).take (cap - 1 - out.length) else [] := by
  induction h with
  | @last line e rest hline he hsize =>
    intro fuel out hfuel _ _
    obtain ⟨d, t, hend, -⟩ := he.head? rest
    have hne : line ++ (e ++ rest) ≠ [] := by simp [hend]
    cases fuel with
    | zero => exact absurd (List.length_eq_zero_iff.mp (by omega)) hne
    | succ fuel =>
      have hline' : cr ∉ line := hcr (line, []) (by simp)
      rw [Orion.Http.decodeLoop, if_neg hne]
      by_cases hplain : PlainLine line
      · rw [chunkSize_plain hline hplain he hsize (by norm_num)]
        simp [hplain, walkData]
      · rw [chunkSize_not_plain hline hline' hplain]
        simp [hplain]
  | @chunk line e data e' rest w hline he hsize hdata he' _ ih =>
    intro fuel out hfuel hbig hout
    obtain ⟨d, t, hend, -⟩ := he.head? (data ++ (e' ++ rest))
    have hne : line ++ (e ++ (data ++ (e' ++ rest))) ≠ [] := by simp [hend]
    have hlen := congrArg List.length (show line ++ (e ++ (data ++ (e' ++ rest)))
      = line ++ e ++ data ++ e' ++ rest by simp)
    simp only [List.length_append] at hlen hfuel hbig
    cases fuel with
    | zero => exact absurd (List.length_eq_zero_iff.mp (by simpa using hfuel)) hne
    | succ fuel =>
      have hline' : cr ∉ line := hcr (line, data) (by simp)
      rw [Orion.Http.decodeLoop, if_neg hne]
      by_cases hplain : PlainLine line
      · have hepos : 0 < e.length := by
          rcases he with rfl | rfl <;> simp
        have hdpos : data.length ≠ 0 := fun hz => hdata (List.length_eq_zero_iff.mp hz)
        rw [chunkSize_plain hline hplain he hsize (by omega)]
        simp only [skipLineEnd_eol he, if_neg hdpos]
        rw [if_neg (by simp), List.drop_left, skipLineEnd_eol he', List.take_left,
          ih (fun c hc => hcr c (by simp [hc])) fuel _ (by omega) (by omega)
            (by rw [List.length_append, List.length_take]; omega)]
        simp only [List.mem_cons, forall_eq_or_imp, hplain, true_and]
        split
        · rw [walkData_cons, List.take_append, List.append_assoc, List.length_append,
            List.length_take]
          congr 3
          show cap - 1 - (out.length + min (cap - 1 - out.length) data.length)
            = cap - 1 - out.length - data.length
          omega
        · rfl
      · rw [chunkSize_not_plain hline hline' hplain]
        simp [hplain]

/-- The data are shorter than the body. -/
theorem Walk.data_lt (h : Walk arch s w) : (walkData w).length < s.length := by
  induction h with
  | @last line e rest _ he _ =>
    rcases he with rfl | rfl <;> simp [walkData]
  | @chunk line e data e' rest w _ he _ _ he' _ ih =>
    have hepos : 0 < e.length := by
      rcases he with rfl | rfl <;> simp
    rw [walkData_cons]
    simp only [List.length_append]
    omega

/-- A chunked body does not start with a byte-order mark. -/
theorem Walk.no_bom (h : Walk arch s w) : [0xEF, 0xBB, 0xBF].isPrefixOf s = false := by
  have hfirst : ∀ (line t : List UInt8) (size : ℕ), lineSize arch line = some size →
      [0xEF, 0xBB, 0xBF].isPrefixOf (line ++ t) = false := by
    intro line t size hsize
    cases line with
    | nil => simp [lineSize, takeNumber] at hsize
    | cons c line =>
      have hc : c ≠ 0xEF := by
        rintro rfl
        have hb : isBlank 0xEF = false := by decide
        have hx : hexDigit 0xEF = none := by decide
        simp [lineSize, takeNumber, hb, hx] at hsize
      rw [List.cons_append]
      simp [List.isPrefixOf, Ne.symm hc]
  cases h with
  | last _ _ hsize => exact hfirst _ _ _ hsize
  | chunk _ _ hsize _ _ _ => exact hfirst _ _ _ hsize

end

/-! ## The length of what is decoded -/

theorem chunkSize_length {s rest : List UInt8} {size : ℕ} (h : chunkSize s = some (size, rest)) :
    rest.length < s.length := by
  unfold chunkSize at h
  cases hnum : takeNumber hexDigit 16 0x100000 s 0 0 with
  | none => simp [hnum] at h
  | some vnr =>
    obtain ⟨v, n, r⟩ := vnr
    have hlen := (takeNumber_spec (by norm_num) s 0 0 hnum).2.1
    have hle : (if r.head? = some 59 then r.dropWhile (! isLineEnd ·) else r).length ≤ r.length := by
      split
      · exact (List.dropWhile_suffix _).length_le
      · exact le_rfl
    simp only [hnum] at h
    generalize (if r.head? = some 59 then r.dropWhile (! isLineEnd ·) else r) = r' at h hle
    split at h
    · simp at h
    · next hok =>
      simp only [not_or] at hok
      rw [← (Prod.mk.inj (Option.some.inj h)).2]
      omega

theorem skipLineEnd_length (s : List UInt8) : (skipLineEnd s).length ≤ s.length := by
  have hskip : ∀ (c : UInt8) (t : List UInt8),
      (if t.head? = some c then t.drop 1 else t).length ≤ t.length := by
    intro c t
    split
    · rw [List.length_drop]
      omega
    · exact le_rfl
  exact (hskip lf _).trans (hskip cr s)

/-- Decoding takes away at least a byte. -/
theorem decodeLoop_length (cap : ℕ) : ∀ (fuel : ℕ) (s out : List UInt8),
    (decodeLoop cap fuel s out).length ≤ out.length + (s.length - 1) := by
  intro fuel
  induction fuel with
  | zero =>
    intro s out
    exact Nat.le_add_right _ _
  | succ fuel ih =>
    intro s out
    rw [decodeLoop]
    split
    · exact Nat.le_add_right _ _
    · cases hsize : chunkSize s with
      | none => simp
      | some sr =>
        obtain ⟨size, rest⟩ := sr
        have hrest := chunkSize_length hsize
        have hskip := skipLineEnd_length rest
        simp only
        split
        · exact Nat.le_add_right _ _
        · split
          · simp
          · next hle =>
            refine (ih _ _).trans ?_
            have hskip' := skipLineEnd_length ((skipLineEnd rest).drop size)
            simp only [List.length_append, List.length_take, List.length_drop] at hskip' ⊢
            omega

end Orion.Http
