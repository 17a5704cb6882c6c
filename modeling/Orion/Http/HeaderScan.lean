import Orion.Http.Complete
import Orion.Http.Sized
import Orion.Lib.Cursor
import Orion.Lib.Words

/-!
# Header lookup (`range_eq_ci`, `header_value_ci`)

The scan of the source, with its four cursors, over memory.  It is the lookup on lists that the rest of the
client is modelled with (`headerLoop_eq`, `headerValueCi_eq`), and on a serialised header it finds the first
field of the name (`header_value_serialised`).
-/

namespace Orion.Http.Scan

open Orion.Lib

/-! ## The source -/

/-- The comparison of `len` characters with a C string. -/
def rangeEqCi (raw : ℕ → UInt8) (a len : ℕ) (name : List UInt8) : Bool :=
  let b := cstr name
  b.length = len && (List.range len).all fun j => lowerAscii (raw (a + j)) = lowerAscii (b.getD j 0)

/-- The loop over the lines; each turn goes on by a character at least. -/
def headerLoop (raw : ℕ → UInt8) (n : ℕ) (name : List UInt8) (cap : ℕ) :
    ℕ → ℕ → (ℕ → UInt8) → Bool × (ℕ → UInt8)
  | 0, _, out => (false, out)
  | fuel + 1, p, out =>
    if p < n then
      let p := scanUp raw isLineEnd n p
      if p ≥ n then (false, out)
      else
        let a := p
        let z := scanUp raw (! isLineEnd ·) n p
        let colon := scanUp raw (· ≠ 58) z a
        if colon < z ∧ rangeEqCi raw a (colon - a) name then
          let v := scanUp raw isBlank z (colon + 1)
          let z := scanDown raw isBlank v z
          let (o, out) := copyUp raw cap z (z - v) v 0 out
          (true, Function.update out o 0)
        else headerLoop raw n name cap fuel z out
    else (false, out)

/-- Returns the result and the buffer. -/
def headerValueCi (raw : ℕ → UInt8) (n : ℕ) (name : List UInt8) (out : ℕ → UInt8) (cap : ℕ) :
    Bool × (ℕ → UInt8) :=
  if cap = 0 then (false, out)
  else
    let out := Function.update out 0 0
    let p := scanUp raw (· ≠ lf) n 0
    headerLoop raw n name cap n (if p < n then p + 1 else p) out

/-! ## The lookup on lists -/

theorem range_map_getD (s : List UInt8) : ((List.range s.length).map fun j => s.getD j 0) = s := by
  apply List.ext_getElem?
  intro j
  rw [List.getElem?_map]
  rcases Nat.lt_or_ge j s.length with hlt | hge
  · rw [List.getElem?_range hlt, Option.map_some, List.getD_eq_getElem?_getD, List.getElem?_eq_getElem hlt]
    rfl
  · rw [List.getElem?_eq_none hge, List.getElem?_eq_none (by rw [List.length_range]; exact hge)]
    rfl

theorem rangeEqCi_eq (raw : ℕ → UInt8) {a b : ℕ} (name : List UInt8) :
    rangeEqCi raw a (b - a) name = eqCi (slice raw a b) (cstr name) := by
  unfold rangeEqCi
  simp only
  generalize cstr name = s
  have hslice : (slice raw a b).map lowerAscii =
      (List.range (b - a)).map fun j => lowerAscii (raw (a + j)) := by
    rw [slice, List.range'_eq_map_range, List.map_map, List.map_map]
    rfl
  by_cases hlen : s.length = b - a
  · have hs : s.map lowerAscii = (List.range (b - a)).map fun j => lowerAscii (s.getD j 0) := by
      rw [← hlen]
      conv_lhs => rw [← range_map_getD s, List.map_map]
      rfl
    rw [eqCi, hslice, hs, decide_eq_true hlen, Bool.true_and, Bool.eq_iff_iff, decide_eq_true_eq,
      List.all_eq_true, List.map_inj_left]
    exact forall₂_congr fun j _ => decide_eq_true_iff
  · rw [decide_eq_false hlen, Bool.false_and, eqCi, eq_comm, decide_eq_false_iff_not]
    intro heq
    have hlengths := congrArg List.length heq
    rw [List.length_map, List.length_map, length_slice] at hlengths
    exact hlen hlengths.symm

/-- The value of a line that is a field of that name. -/
def fieldValue (name line : List UInt8) : Option (List UInt8) :=
  match splitColon line with
  | none => none
  | some (field, value) => if eqCi field name then some (trim value) else none

/-- The result and the buffer for a value that was found. -/
def answer (out : ℕ → UInt8) (cap : ℕ) : Option (List UInt8) → Bool × (ℕ → UInt8)
  | none => (false, out)
  | some v => (true, overwritten out (v.take (cap - 1) ++ [0]))

/-- The line between `a` and `z`, and a colon in it. -/
theorem splitColon_slice {raw : ℕ → UInt8} {a z : ℕ} (h : a ≤ z) :
    splitColon (slice raw a z) = if scanUp raw (· ≠ 58) z a < z then
      some (slice raw a (scanUp raw (· ≠ 58) z a), slice raw (scanUp raw (· ≠ 58) z a + 1) z) else none := by
  have hscan := scanUp_spec raw (· ≠ 58) h
  rw [splitColon, ← hscan.passed, ← hscan.ahead]
  split
  · next hnil =>
    rw [if_neg]
    intro hlt
    rw [slice_cons raw hlt] at hnil
    cases hnil
  · next c value hcons =>
    have hlt : scanUp raw (· ≠ 58) z a < z := by
      by_contra hge
      rw [slice_of_le raw (by omega)] at hcons
      cases hcons
    rw [slice_cons raw hlt] at hcons
    rw [if_pos hlt, ← (List.cons.inj hcons).2]

/-- The two cursors around a value. -/
theorem trim_slice (raw : ℕ → UInt8) {a z : ℕ} (h : a ≤ z) :
    scanUp raw isBlank z a ≤ scanDown raw isBlank (scanUp raw isBlank z a) z ∧
      slice raw (scanUp raw isBlank z a) (scanDown raw isBlank (scanUp raw isBlank z a) z) =
        trim (slice raw a z) := by
  have hup := scanUp_spec raw isBlank h
  obtain ⟨hge, -, hdown⟩ := scanDown_spec raw isBlank hup.le
  exact ⟨hge, by rw [hdown, hup.ahead, trim]⟩

/-- The copy of the value between the two cursors. -/
theorem copyUp_trim (raw : ℕ → UInt8) (cap : ℕ) (out : ℕ → UInt8) {a z : ℕ} (h : a ≤ z) :
    (let v := scanUp raw isBlank z a
     let z := scanDown raw isBlank v z
     let (o, out) := copyUp raw cap z (z - v) v 0 out
     ((true, Function.update out o 0) : Bool × (ℕ → UInt8))) = answer out cap (some (trim (slice raw a z))) := by
  obtain ⟨hge, htrim⟩ := trim_slice raw h
  simp only
  generalize scanUp raw isBlank z a = v at *
  generalize scanDown raw isBlank v z = z' at *
  have hcopy := copyUp_spec raw cap out [] hge le_rfl (Nat.zero_le _)
  rw [List.nil_append, htrim] at hcopy
  rw [show copyUp raw cap z' (z' - v) v 0 out = _ from hcopy]
  exact congrArg (Prod.mk true) (overwritten_concat out _ 0)

/-- One turn of the loop finds the next line. -/
theorem words_slice (raw : ℕ → UInt8) {n p : ℕ} (hp : p ≤ n) :
    let a := scanUp raw isLineEnd n p
    let z := scanUp raw (! isLineEnd ·) n a
    p ≤ a ∧ a ≤ n ∧ (a = n → words isLineEnd (slice raw p n) = []) ∧ (a < n → a < z ∧ z ≤ n ∧
      words isLineEnd (slice raw p n) = slice raw a z :: words isLineEnd (slice raw z n)) := by
  intro a z
  have hskip : ScannedUp raw isLineEnd n p a := scanUp_spec raw isLineEnd hp
  have hwords : words isLineEnd (slice raw p n) = words isLineEnd (slice raw a n) := by
    rw [hskip.ahead, words_dropWhile]
  refine ⟨hskip.ge, hskip.le, fun heq => ?_, fun hlt => ?_⟩
  · rw [hwords, heq, slice_of_le raw le_rfl, words_nil]
  · have hline : ScannedUp raw (! isLineEnd ·) n a z := scanUp_spec raw _ hskip.le
    have hcons := slice_cons raw hlt
    have hhead : isLineEnd (raw a) = false := by
      have hstop := List.head?_dropWhile_not isLineEnd (slice raw p n)
      rw [← hskip.ahead, hcons] at hstop
      simpa using hstop
    rw [hwords, hline.passed, hline.ahead, hcons, words_eq hhead]
    refine ⟨?_, hline.le, rfl⟩
    by_contra hle
    have hempty := hline.passed
    rw [slice_of_le raw (not_lt.mp hle), hcons, List.takeWhile_cons_of_pos (by rw [hhead]; rfl)] at hempty
    cases hempty

theorem headerLoop_eq {raw : ℕ → UInt8} {n cap fuel p : ℕ} (name : List UInt8) (out : ℕ → UInt8) (hp : p ≤ n)
    (hfuel : n - p ≤ fuel) : headerLoop raw n name cap fuel p out =
      answer out cap ((words isLineEnd (slice raw p n)).findSome? (fieldValue (cstr name))) := by
  induction fuel generalizing p with
  | zero =>
    rw [slice_of_le raw (by omega)]
    rfl
  | succ fuel ih =>
    rw [headerLoop]
    split
    · next hlt =>
      obtain ⟨hpa, han, hnone, hsome⟩ := words_slice raw hp
      simp only
      split
      · next hend =>
        rw [hnone (le_antisymm han hend)]
        rfl
      · next hmore =>
        obtain ⟨haz, hzn, hwords⟩ := hsome (not_le.mp hmore)
        generalize scanUp raw isLineEnd n p = a at *
        generalize scanUp raw (! isLineEnd ·) n a = z at *
        rw [hwords, List.findSome?_cons, fieldValue, splitColon_slice haz.le]
        have hcolon := scanUp_spec raw (· ≠ 58) haz.le
        rw [rangeEqCi_eq]
        generalize scanUp raw (· ≠ 58) z a = colon at *
        by_cases hfield : colon < z ∧ eqCi (slice raw a colon) (cstr name) = true
        · obtain ⟨hlt', hname⟩ := hfield
          rw [if_pos ⟨hlt', hname⟩, if_pos hlt']
          simp only [if_pos hname]
          exact copyUp_trim raw cap out hlt'
        · rw [if_neg hfield, ih hzn (by omega)]
          by_cases hlt' : colon < z
          · have hname : ¬ eqCi (slice raw a colon) (cstr name) = true := fun h => hfield ⟨hlt', h⟩
            simp only [if_pos hlt', if_neg hname]
          · simp only [if_neg hlt']
    · rw [slice_of_le raw (by omega)]
      rfl

theorem fieldLines_eq_words (head : List UInt8) :
    fieldLines head = words isLineEnd ((head.dropWhile (· ≠ lf)).drop 1) := by
  rw [fieldLines, words]
  refine List.filter_congr fun line _ => ?_
  cases line <;> rfl

/-- **The scan is the lookup on lists.** -/
theorem headerValueCi_eq (raw : ℕ → UInt8) (n : ℕ) {cap : ℕ} (name : List UInt8) (out : ℕ → UInt8)
    (hcap : cap ≠ 0) :
    headerValueCi raw n name out cap =
      answer (Function.update out 0 0) cap (headerValueFull (slice raw 0 n) (cstr name)) := by
  have hfirst := scanUp_spec raw (· ≠ lf) (Nat.zero_le n)
  rw [headerValueCi, if_neg hcap]
  simp only
  generalize scanUp raw (· ≠ lf) n 0 = p at hfirst ⊢
  have hrest : slice raw (if p < n then p + 1 else p) n = ((slice raw 0 n).dropWhile (· ≠ lf)).drop 1 := by
    rw [← hfirst.ahead]
    split
    · next hlt =>
      rw [slice_cons raw hlt]
      rfl
    · next hge =>
      rw [slice_of_le raw (not_lt.mp hge)]
      rfl
  have hle := hfirst.le
  rw [headerLoop_eq name _ (by split <;> omega) (by omega), hrest, ← fieldLines_eq_words]
  rfl

/-- A C string ends at its NUL. -/
theorem cstr_nul (s t : List UInt8) : cstr (s ++ 0 :: t) = cstr s := by
  induction s with
  | nil => rfl
  | cons c s ih =>
    show List.takeWhile _ (c :: (s ++ 0 :: t)) = List.takeWhile _ (c :: s)
    rw [List.takeWhile_cons, List.takeWhile_cons]
    exact if_congr Iff.rfl (congrArg (c :: ·) ih) rfl

/-- The buffer read as a C string is the value that the rest of the client goes on with. -/
theorem headerValueCi_read (raw : ℕ → UInt8) (n : ℕ) {cap : ℕ} (name : List UInt8) (out : ℕ → UInt8)
    (hcap : cap ≠ 0) :
    (let r := headerValueCi raw n name out cap
     if r.1 then some (cstr (slice r.2 0 cap)) else none) =
      Http.headerValueCi (slice raw 0 n) (cstr name) cap := by
  rw [headerValueCi_eq raw n name out hcap, Http.headerValueCi_eq]
  cases headerValueFull (slice raw 0 n) (cstr name) with
  | none => rfl
  | some v =>
    show some (cstr (slice (overwritten _ (scopy cap v ++ [0])) 0 cap)) = some (cstr (scopy cap v))
    have hlen : (scopy cap v).length + 1 ≤ cap := by
      have htake := List.length_take_le (cap - 1) v
      show (v.take (cap - 1)).length + 1 ≤ cap
      omega
    rw [← slice_append _ (Nat.zero_le _) hlen, slice_concat _ (Nat.zero_le _), slice_overwritten,
      overwritten_last, List.append_assoc, List.singleton_append, cstr_nul]

/-! ## Serialised headers -/

/-- A field; the name has no colon, and neither has a line end. -/
structure Header where
  name : List UInt8
  value : List UInt8
  name_ok : ∀ c ∈ name, c ≠ 58 ∧ c ≠ cr ∧ c ≠ lf
  value_ok : OneLine value

def Header.bytes (h : Header) : List UInt8 := h.name ++ 58 :: h.value

theorem Header.line (h : Header) : ∀ c ∈ h.bytes, isLineEnd c = false := by
  refine isLineEnd_of_oneLine fun c hc => ?_
  rcases List.mem_append.mp hc with hc | hc
  · exact (h.name_ok c hc).2
  · rcases List.mem_cons.mp hc with rfl | hc
    · decide
    · exact h.value_ok c hc

theorem Header.bytes_ne_nil (h : Header) : h.bytes ≠ [] :=
  List.append_ne_nil_of_right_ne_nil _ (List.cons_ne_nil _ _)

theorem Header.fieldValue_eq (h : Header) (name : List UInt8) :
    fieldValue name h.bytes = if eqCi h.name name then some (trim h.value) else none := by
  have hcolon : 58 ∉ h.name := fun hmem => (h.name_ok 58 hmem).1 rfl
  rw [fieldValue, Header.bytes, splitColon_append hcolon]

/-- A status line and the fields, with line ends between them. -/
def serialise (eol status : List UInt8) (headers : List Header) : List UInt8 :=
  eol.intercalate (status :: headers.map Header.bytes)

section

variable {eol status tail : List UInt8} (heol : eol = crlf ∨ eol = [lf]) (hstatus : lf ∉ status)
  (htail : ∀ c ∈ tail, isLineEnd c = true)

theorem serialise_eq (eol status : List UInt8) (headers : List Header) :
    serialise eol status headers = status ++ headers.flatMap fun h => eol ++ h.bytes := by
  rw [serialise]
  induction headers generalizing status with
  | nil => simp
  | cons h headers ih =>
    rw [List.map_cons, List.intercalate_cons_cons, ih, List.flatMap_cons, List.append_assoc,
      List.append_assoc]

include heol htail

theorem head_fields (headers : List Header) :
    ∀ c ∈ (headers.flatMap (fun h => eol ++ h.bytes) ++ tail).head?, isLineEnd c = true := by
  cases headers with
  | nil => exact fun c hc => htail c (List.mem_of_mem_head? hc)
  | cons h headers =>
    intro c hc
    rw [List.flatMap_cons, List.append_assoc, List.append_assoc] at hc
    rcases heol with rfl | rfl <;> obtain rfl := Option.some.inj hc <;> rfl

theorem words_fields (headers : List Header) :
    words isLineEnd (headers.flatMap (fun h => eol ++ h.bytes) ++ tail) = headers.map Header.bytes := by
  induction headers with
  | nil => exact words_separators htail
  | cons h headers ih =>
    have hend : words isLineEnd (eol ++ (h.bytes ++ (headers.flatMap (fun h => eol ++ h.bytes) ++ tail))) =
        words isLineEnd (h.bytes ++ (headers.flatMap (fun h => eol ++ h.bytes) ++ tail)) := by
      rcases heol with rfl | rfl
      · exact (words_cons_sep rfl _).trans (words_cons_sep rfl _)
      · exact words_cons_sep rfl _
    rw [List.flatMap_cons, List.append_assoc, List.append_assoc, hend,
      words_append_of_head h.bytes_ne_nil h.line (head_fields heol htail headers), ih, List.map_cons]

include hstatus

/-- The lines of the scan are the fields. -/
theorem fieldLines_serialise (headers : List Header) :
    fieldLines (serialise eol status headers ++ tail) = headers.map Header.bytes := by
  have hfirst : ∀ c ∈ status, decide (c ≠ lf) = true := by
    intro c hc
    exact decide_eq_true (ne_of_mem_of_not_mem hc hstatus)
  rw [fieldLines_eq_words, serialise_eq, List.append_assoc, List.dropWhile_append_of_pos hfirst]
  have hwords := words_fields heol htail headers
  cases headers with
  | nil =>
    refine words_separators fun c hc => htail c ?_
    exact (List.dropWhile_sublist _).subset (List.mem_of_mem_drop hc)
  | cons h headers =>
    rw [← hwords, List.flatMap_cons, List.append_assoc, List.append_assoc]
    rcases heol with rfl | rfl
    · exact ((words_cons_sep rfl _).trans (words_cons_sep rfl _)).symm
    · exact (words_cons_sep rfl _).symm

theorem headerValueFull_serialise (headers : List Header) (name : List UInt8) :
    headerValueFull (serialise eol status headers ++ tail) name =
      (headers.find? fun h => eqCi h.name name).map fun h => trim h.value := by
  show (fieldLines (serialise eol status headers ++ tail)).findSome? (fieldValue name) = _
  rw [fieldLines_serialise heol hstatus htail, List.findSome?_map]
  induction headers with
  | nil => rfl
  | cons h headers ih =>
    rw [List.findSome?_cons, List.find?_cons, Function.comp_apply, Header.fieldValue_eq]
    cases eqCi h.name name with
    | true => rfl
    | false => exact ih

/-- **Header lookup inverts serialisation.** -/
theorem header_value_serialised (headers : List Header) (name : List UInt8) {cap : ℕ} (hcap : 1 ≤ cap)
    {raw : ℕ → UInt8} {n : ℕ} (hraw : slice raw 0 n = serialise eol status headers ++ tail)
    (out : ℕ → UInt8) :
    ((headerValueCi raw n name out cap).1 = true ↔ ∃ h ∈ headers, eqCi h.name (cstr name) = true) ∧
    ∀ h, headers.find? (fun h => eqCi h.name (cstr name)) = some h →
      let v := (trim h.value).take (cap - 1)
      let out' := (headerValueCi raw n name out cap).2
      slice out' 0 v.length = v ∧ out' v.length = 0 ∧ ∀ i, v.length < i → out' i = out i := by
  have hscan := headerValueCi_eq raw n name out (Nat.one_le_iff_ne_zero.mp hcap)
  rw [hraw, headerValueFull_serialise heol hstatus htail] at hscan
  rw [hscan]
  constructor
  · rw [← List.find?_isSome]
    cases headers.find? fun h => eqCi h.name (cstr name) with
    | none => exact iff_of_false Bool.false_ne_true Bool.false_ne_true
    | some h => exact iff_of_true rfl rfl
  · intro h hfound v out'
    have hout : out' = overwritten out (v ++ [0]) := by
      show (answer _ cap (Option.map _ (headers.find? _))).2 = _
      rw [hfound]
      exact overwritten_update out 0 (List.append_ne_nil_of_right_ne_nil v (List.cons_ne_nil 0 []))
    rw [hout]
    refine ⟨slice_overwritten out v [0], overwritten_last out v 0, fun i hi => overwritten_of_le out ?_⟩
    rw [List.length_append, List.length_singleton]
    exact hi

end

theorem forall_of_all {p : UInt8 → Prop} [DecidablePred p] {l : List UInt8} (h : l.all (p ·) = true) :
    ∀ c ∈ l, p c :=
  fun c hc => of_decide_eq_true (List.all_eq_true.mp h c hc)

/-- `Content-Type` is asked for behind a `Location` whose value has a colon, and cut to four characters. -/
theorem header_value_serialised_contentType :
    let location : Header := ⟨ascii "Location", ascii " http://a/b ", forall_of_all rfl, forall_of_all rfl⟩
    let content : Header := ⟨ascii "Content-Type", ascii "  text/html", forall_of_all rfl, forall_of_all rfl⟩
    let bytes := serialise crlf (ascii "HTTP/1.1 200 OK") [location, content] ++ (crlf ++ crlf)
    let raw : ℕ → UInt8 := fun i => bytes.getD i 0
    slice (headerValueCi raw bytes.length (ascii "content-type") (fun _ => 7) 5).2 0 4 = ascii "text" := by
  intro location content bytes raw
  have hstatus : lf ∉ ascii "HTTP/1.1 200 OK" := by decide
  have htail : ∀ c ∈ crlf ++ crlf, isLineEnd c = true := List.all_eq_true.mp rfl
  have hraw : slice raw 0 bytes.length = bytes := by
    rw [slice, Nat.sub_zero, ← List.range_eq_range']
    exact range_map_getD bytes
  have hfound : [location, content].find? (fun h => eqCi h.name (cstr (ascii "content-type"))) =
      some content := rfl
  exact ((header_value_serialised (.inl rfl) hstatus htail [location, content] (ascii "content-type")
    (show 1 ≤ 5 by decide) hraw fun _ => 7).2 content hfound).1

end Orion.Http.Scan
