import Orion.Http.Address
import Orion.Http.Agree
import Orion.Http.Boundary
import Orion.Http.FrameExact

/-!
# Responses with a `Content-Length`

A `SizedResponse` has one `Content-Length`, a body of that many bytes, and line ends of one kind.  Here is
what the code reads off its header: where it ends, that it is no redirect, and the value of the field as
far as it fits the buffer for it.
-/

namespace Orion.Http

/-- A response with a body of the announced length, that is neither a redirect nor chunked; its lines end
with CR LF, or with LF alone. -/
structure SizedResponse where
  eol : List UInt8
  status : StatusLine
  before : List Line
  length : Line
  after : List Line
  value : List UInt8
  body : List UInt8
  eol_ok : eol = crlf ∨ eol = [lf]
  notRedirect : redirectCode status.code = false
  notChunked : ¬ IsChunked (before ++ length :: after)
  isLength : IsField "Content-Length" length.bytes value
  numeral : IsNumeral decDigit 10 value body.length
  small : body.length < 32768
  single : ∀ l ∈ before ++ after, ∀ v, ¬ IsField "Content-Length" l.bytes v

namespace SizedResponse

variable (r : SizedResponse)

def lines : List (List UInt8) := (r.before ++ r.length :: r.after).map Line.bytes

/-- The header without the empty line. -/
def head : List UInt8 := r.eol.intercalate (r.status.bytes :: r.lines)

/-- The header, and then `b` for a body. -/
def withBody (b : List UInt8) : List UInt8 := r.head ++ (r.eol ++ r.eol) ++ b

def bytes : List UInt8 := r.withBody r.body

end SizedResponse

/-! ## Lines -/

theorem isLineEnd_of_oneLine {l : List UInt8} (h : OneLine l) : ∀ c ∈ l, isLineEnd c = false := by
  intro c hc
  simpa [isLineEnd] using h c hc

/-- The lines come back when the text is split at its line ends. -/
theorem splitOnP_intercalate {eol : List UInt8} (heol : eol = crlf ∨ eol = [lf]) :
    ∀ (ls : List (List UInt8)) (l : List UInt8), HeadLines (l :: ls) →
      ((eol.intercalate (l :: ls)).splitOnP isLineEnd).filter (· ≠ []) = l :: ls := by
  intro ls
  induction ls with
  | nil =>
    intro l h
    obtain ⟨hne, hone⟩ := h l (by simp)
    rw [List.intercalate_singleton, List.splitOnP_eq_singleton (isLineEnd_of_oneLine hone)]
    simp [hne]
  | cons l' ls ih =>
    intro l h
    obtain ⟨hne, hone⟩ := h l (by simp)
    have hih := ih l' fun x hx => h x (by simp [hx])
    have hplain := isLineEnd_of_oneLine hone
    rw [List.intercalate_cons_cons, List.append_assoc]
    rcases heol with rfl | rfl
    · -- between CR and LF there is an empty piece
      rw [show crlf ++ crlf.intercalate (l' :: ls) = cr :: lf :: crlf.intercalate (l' :: ls) from rfl,
        List.splitOnP_append_cons_of_forall_mem hplain cr rfl,
        show lf :: crlf.intercalate (l' :: ls) = [] ++ lf :: crlf.intercalate (l' :: ls) from rfl,
        List.splitOnP_append_cons_of_forall_mem (by simp) lf rfl, List.filter_cons_of_pos (by simpa using hne),
        List.filter_cons_of_neg (by simp), hih]
    · rw [show [lf] ++ List.intercalate [lf] (l' :: ls) = lf :: List.intercalate [lf] (l' :: ls) from rfl,
        List.splitOnP_append_cons_of_forall_mem hplain lf rfl, List.filter_cons_of_pos (by simpa using hne),
        hih]

/-- The code's lines behind the first one are the lines of the header behind the status line. -/
theorem fieldLines_intercalate {eol : List UInt8} (heol : eol = crlf ∨ eol = [lf])
    {first l : List UInt8} {ls : List (List UInt8)} (h : HeadLines (first :: l :: ls)) :
    fieldLines (eol.intercalate (first :: l :: ls)) = l :: ls := by
  have hone := (h first (by simp)).2
  have hrest := splitOnP_intercalate heol ls l fun x hx => h x (List.mem_cons_of_mem _ hx)
  have hskip : ∀ t, ((first ++ eol ++ t).dropWhile (· ≠ lf)).drop 1 = t := by
    intro t
    have hfirst : ∀ c ∈ first, decide (c ≠ lf) = true := by
      intro c hc
      simpa using (hone c hc).2
    rw [List.append_assoc, List.dropWhile_append_of_pos hfirst]
    rcases heol with rfl | rfl <;> rfl
  rw [fieldLines, List.intercalate_cons_cons, hskip, hrest]

/-- With line feeds alone, the header ends at the first two of them. -/
theorem findSub_lf_intercalate : ∀ (ls : List (List UInt8)) (l : List UInt8), HeadLines (l :: ls) →
    findSub [lf, lf] (List.intercalate [lf] (l :: ls) ++ [lf, lf]) =
      some (List.intercalate [lf] (l :: ls)).length := by
  intro ls
  induction ls with
  | nil =>
    intro l h
    rw [List.intercalate_singleton, findSub_skip (h l (by simp)).2.not_mem.2]
    simp [findSub, List.isPrefixOf]
  | cons l' ls ih =>
    intro l h
    obtain ⟨hne', hone'⟩ := h l' (by simp)
    have hih := ih l' fun x hx => h x (by simp [hx])
    obtain ⟨c, t, htext, hc⟩ : ∃ c t, List.intercalate [lf] (l' :: ls) ++ [lf, lf] = c :: t ∧ c ≠ lf := by
      cases l' with
      | nil => exact absurd rfl hne'
      | cons c l' =>
        have hc := (hone' c (by simp)).2
        cases ls with
        | nil => exact ⟨c, l' ++ [lf, lf], by rw [List.intercalate_singleton]; rfl, hc⟩
        | cons x ls => exact ⟨c, _, by rw [List.intercalate_cons_cons]; rfl, hc⟩
    have hnot : [lf, lf].isPrefixOf (lf :: c :: t) = false := by
      simp [List.isPrefixOf, Ne.symm hc]
    rw [List.intercalate_cons_cons, List.append_assoc, List.append_assoc,
      findSub_skip (h l (by simp)).2.not_mem.2, htext]
    rw [htext] at hih
    rw [show [lf] ++ c :: t = lf :: c :: t from rfl, findSub, hnot, if_neg (by decide), hih]
    simp only [Option.map_some, List.length_append, List.length_cons, List.length_nil]
    congr 1
    omega

/-! ## The header as the code reads it -/

namespace SizedResponse

variable (r : SizedResponse)

theorem headLines : HeadLines (r.status.bytes :: r.lines) := by
  intro l hl
  rcases List.mem_cons.mp hl with rfl | hl
  · exact ⟨by simp [StatusLine.bytes], r.status.oneLine_bytes⟩
  · obtain ⟨line, -, rfl⟩ := List.mem_map.mp hl
    exact ⟨line.nonempty, line.oneLine⟩

theorem fieldLines_head : fieldLines r.head = r.lines := by
  have hlines := r.headLines
  unfold head
  cases hl : r.lines with
  | nil => simp [lines] at hl
  | cons l ls =>
    rw [hl] at hlines
    exact fieldLines_intercalate r.eol_ok hlines

/-- The status is that of the status line, wherever the code takes the header to end. -/
theorem httpStatusCode_head (t : List UInt8) : httpStatusCode (r.head ++ t) = r.status.code := by
  refine httpStatusCode_eq ?_
  unfold head
  cases r.lines with
  | nil => rw [List.intercalate_singleton, parseStatus_status]
  | cons l ls => rw [List.intercalate_cons_cons, List.append_assoc, List.append_assoc, parseStatus_status]

/-- No carriage return stands in a header with line feeds alone. -/
theorem cr_not_mem_head (heol : r.eol = [lf]) : cr ∉ r.head := by
  have hjoin : ∀ ls : List (List UInt8), (∀ l ∈ ls, OneLine l) → cr ∉ List.intercalate [lf] ls := by
    intro ls
    induction ls with
    | nil => intro _; simp
    | cons l ls ih =>
      intro h hm
      have hl := (h l (by simp)).not_mem.1
      cases ls with
      | nil =>
        rw [List.intercalate_singleton] at hm
        exact hl hm
      | cons l' ls =>
        rw [List.intercalate_cons_cons, List.append_assoc, List.mem_append] at hm
        rcases hm with hm | hm
        · exact hl hm
        · rcases List.mem_cons.mp hm with hcr | hm
          · exact absurd hcr (by decide)
          · exact ih (fun x hx => h x (List.mem_cons_of_mem _ hx)) hm
  unfold head
  rw [heol]
  exact hjoin _ fun l hl => (r.headLines l hl).2

/-- The blank line that the code looks for first: in the header, or else in the body. -/
theorem findSub_crlf (heol : r.eol = [lf]) (b : List UInt8) :
    findSub [cr, lf, cr, lf] (r.withBody b) =
      (findSub [cr, lf, cr, lf] b).map (· + (r.head.length + 2)) := by
  have hno : cr ∉ r.head ++ (r.eol ++ r.eol) := by
    intro hm
    rcases List.mem_append.mp hm with hm | hm
    · exact r.cr_not_mem_head heol hm
    · rw [heol] at hm
      exact absurd hm (by decide)
  rw [withBody, findSub_skip hno, List.length_append, heol]
  rfl

/-- The body has no blank line of its own that the code would take for the end of the header. -/
def Placed (b : List UInt8) : Prop := r.eol = crlf ∨ ¬ [cr, lf, cr, lf] <:+: b

/-- **The header ends where it ends**, if the body does not mislead the search. -/
theorem headerBoundary_placed {b : List UInt8} (hb : r.Placed b) :
    headerBoundary (r.withBody b) = some ⟨r.head.length, r.head.length + (r.eol ++ r.eol).length⟩ := by
  by_cases heol : r.eol = crlf
  · rw [withBody, head, heol]
    exact headerBoundary_head r.headLines b
  · have hlf : r.eol = [lf] := r.eol_ok.resolve_left heol
    have hnone : findSub [cr, lf, cr, lf] b = none := by
      cases hf : findSub [cr, lf, cr, lf] b with
      | none => rfl
      | some i =>
        have hwithin := (findSub_some hf).1.isInfix.trans (List.drop_suffix i b).isInfix
        exact absurd hwithin (hb.resolve_left heol)
    have hboth : findSub [lf, lf] (r.withBody b) = some r.head.length := by
      rw [withBody, head, hlf]
      exact findSub_append (by simp) b (findSub_lf_intercalate r.lines r.status.bytes r.headLines)
    rw [headerBoundary_lf (by rw [r.findSub_crlf hlf, hnone]; rfl), hboth, hlf]
    rfl

/-- With line feeds alone, the header seems to go on to a CR LF CR LF in the body. -/
theorem headerBoundary_misplaced {b : List UInt8} (hb : ¬ r.Placed b) :
    ∃ i, i + 4 ≤ b.length ∧
      headerBoundary (r.withBody b) = some ⟨r.head.length + (i + 2), r.head.length + (i + 2) + 4⟩ := by
  simp only [Placed, not_or, not_not] at hb
  have hlf : r.eol = [lf] := r.eol_ok.resolve_left hb.1
  cases hf : findSub [cr, lf, cr, lf] b with
  | none =>
    obtain ⟨s, t, hst⟩ := hb.2
    have hat : [cr, lf, cr, lf] <+: b.drop s.length := by
      rw [← hst, List.append_assoc, List.drop_left]
      exact List.prefix_append _ _
    exact absurd hat (findSub_none (by simp) hf _)
  | some i =>
    refine ⟨i, findSub_le hf, headerBoundary_crlf ?_⟩
    rw [r.findSub_crlf hlf, hf, Option.map_some]
    congr 1
    omega

/-- Nothing stands between the name of the field and the colon. -/
def Direct : Prop :=
  ∃ name rest, r.length.bytes = name ++ 58 :: rest ∧ eqCi name (ascii "Content-Length") = true

/-- What the code makes of one line when it looks for the field. -/
def lengthOf (line : List UInt8) : Option (List UInt8) :=
  match splitColon line with
  | none => none
  | some (field, value) =>
    if eqCi field (ascii "Content-Length") then some (cstr (scopy 32 (trim value))) else none

theorem plainName_length : PlainName (ascii "Content-Length") := by decide

/-- A line that is no such field is passed over. -/
theorem lengthOf_none {line : List UInt8} (h : ∀ v, ¬ IsField "Content-Length" line v) :
    lengthOf line = none := by
  unfold lengthOf
  cases hsplit : splitColon line with
  | none => rfl
  | some p =>
    obtain ⟨field, v⟩ := p
    simp only
    rw [if_neg]
    intro hname
    refine h (trim v) ((isField_of_split plainName_length hsplit).mpr ⟨?_, rfl⟩)
    rw [rdropWhile_of_getLast? fun c hc =>
      (plainName_length.of_eqCi hname c (List.mem_of_getLast? hc)).2.2.2]
    exact hname

theorem headerValueCi_head :
    headerValueCi r.head (ascii "Content-Length") 32 = lengthOf r.length.bytes := by
  have hbefore : (r.before.map Line.bytes).findSome? lengthOf = none := by
    rw [List.findSome?_eq_none_iff]
    intro l hl
    obtain ⟨line, hline, rfl⟩ := List.mem_map.mp hl
    exact lengthOf_none (r.single line (List.mem_append_left _ hline))
  have hafter : (r.after.map Line.bytes).findSome? lengthOf = none := by
    rw [List.findSome?_eq_none_iff]
    intro l hl
    obtain ⟨line, hline, rfl⟩ := List.mem_map.mp hl
    exact lengthOf_none (r.single line (List.mem_append_right _ hline))
  have hfind : headerValueCi r.head (ascii "Content-Length") 32 = r.lines.findSome? lengthOf := by
    rw [headerValueCi, r.fieldLines_head]
    rfl
  rw [hfind, lines, List.map_append, List.map_cons, List.findSome?_append, hbefore, Option.none_or,
    List.findSome?_cons, hafter]
  cases lengthOf r.length.bytes <;> rfl

/-- A numeral has no zero byte. -/
theorem cstr_digits {text : List UInt8} (h : ∀ c ∈ text, isDigit c = true) : cstr text = text := by
  rw [cstr, List.takeWhile_eq_self_iff]
  intro c hc
  have hd := h c hc
  simp only [decide_eq_true_eq]
  rintro rfl
  exact absurd hd (by decide)

/-- **The value of the field as far as it fits its buffer of 32 bytes.** -/
theorem headerValueCi_direct (hd : r.Direct) :
    headerValueCi r.head (ascii "Content-Length") 32 = some (r.value.take 31) := by
  obtain ⟨name, rest, hline, hname⟩ := hd
  have hcolon : 58 ∉ name := fun hm => (plainName_length.of_eqCi hname 58 hm).1 rfl
  have hsplit : splitColon r.length.bytes = some (name, rest) := by
    rw [hline]
    exact splitColon_append hcolon rest
  obtain ⟨-, htrim⟩ := (isField_of_split plainName_length hsplit).mp r.isLength
  have hdigits := isDigit_of_numeral r.numeral
  rw [headerValueCi_head, lengthOf, hsplit]
  simp only
  rw [if_pos hname, htrim, scopy, cstr_digits fun c hc => hdigits c (List.mem_of_mem_take hc)]

/-- With a gap before the colon the code does not find the field. -/
theorem headerValueCi_gap (hd : ¬ r.Direct) :
    headerValueCi r.head (ascii "Content-Length") 32 = none := by
  rw [headerValueCi_head, lengthOf]
  cases hsplit : splitColon r.length.bytes with
  | none => rfl
  | some p =>
    obtain ⟨name, rest⟩ := p
    simp only
    rw [if_neg fun hname => hd ⟨name, rest, splitColon_some hsplit, hname⟩]

/-! ## The number as the code reads it -/

theorem parseSizeDec_numeral {text : List UInt8} {n : ℕ} (h : IsNumeral decDigit 10 text n)
    (hn : n ≤ 0x1000000) : parseSizeDec text = some n := by
  have hread := takeNumber_numeral [] (by norm_num) h hn (by simp)
  rw [List.append_nil] at hread
  rw [parseSizeDec, hread]
  simp only
  rw [if_neg (mt List.length_eq_zero_iff.mp h.1)]

/-- What is left of the number: all of it, or less than a tenth. -/
theorem parseSizeDec_value : ∃ m, parseSizeDec (r.value.take 31) = some m ∧
    (r.value.length ≤ 31 → m = r.body.length) ∧ (31 < r.value.length → 10 * m ≤ r.body.length) := by
  have hnum := r.numeral
  have hsmall := r.small
  by_cases hlen : r.value.length ≤ 31
  · rw [List.take_of_length_le hlen]
    exact ⟨_, parseSizeDec_numeral hnum (by omega), fun _ => rfl, fun h => absurd hlen (by omega)⟩
  · have hne : r.value.take 31 ≠ [] := by
      intro hnil
      have hlen' := congrArg List.length hnil
      rw [List.length_take, List.length_nil] at hlen'
      omega
    rw [← List.take_append_drop 31 r.value] at hnum
    obtain ⟨m, k, hm, hn⟩ := hnum.of_append hne
    have hpow : 10 ^ 1 ≤ 10 ^ (r.value.drop 31).length :=
      Nat.pow_le_pow_right (by norm_num) (by rw [List.length_drop]; omega)
    have hle := Nat.mul_le_mul_right m hpow
    exact ⟨m, parseSizeDec_numeral hm (by omega), fun h => absurd h hlen, fun _ => by omega⟩

end SizedResponse

end Orion.Http
