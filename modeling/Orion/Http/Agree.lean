import Orion.Http.ChunkWalk
import Orion.Http.Get

/-!
# The two framings

A response through TLS is framed twice: `http_frame_complete` says when it is complete, and then
`net_http_get` takes the body out with rules of its own.  Here is what the first one delimits
(`View.payload`), under which condition on the bytes the second one delivers exactly that
(`View.Same`), and that apart from repetitions in the bytes (`View.Repeats`) it does not otherwise.
-/

namespace Orion.Http

/-! ## What `http_frame_complete` delimits -/

/-- A body as `http_frame_complete` sees it; without one it has length 0. -/
inductive Seen where
  | sized (n : ℕ)
  | chunked
  deriving Repr, DecidableEq

/-- The header, the bytes behind it and the framing that `http_frame_complete` reads off. -/
structure View where
  head : List UInt8
  src : List UInt8
  seen : Seen
  deriving Repr, DecidableEq

def view (arch : Arch) (b : List UInt8) : Option View :=
  match headerBoundary b with
  | none => none
  | some bd =>
    let head := b.take bd.headEnd
    let src := b.drop bd.bodyOff
    match parseStatus head with
    | none => none
    | some code =>
      if code = 204 ∨ code = 304 then some ⟨head, src, .sized 0⟩
      else
        match scanHeader arch head with
        | none => none
        | some f =>
          if f.chunked then some ⟨head, src, .chunked⟩
          else f.contentLen.map fun n => ⟨head, src, .sized n⟩

def View.chunks (arch : Arch) (v : View) : List (List UInt8 × List UInt8) :=
  chunkWalk arch v.src.length v.src

/-- The payload that the framing delimits. -/
def View.payload (arch : Arch) (v : View) : List UInt8 :=
  match v.seen with
  | .sized n => v.src.take n
  | .chunked => walkData (v.chunks arch)

/-! ## What `net_http_get` makes of it -/

/-- The call of `net_http_get` ends with exactly the payload, cut to the buffer. -/
def Delivers (b payload : List UInt8) : Prop :=
  ∀ (cap : ℕ) (current : List UInt8) (last : Bool), 2 ≤ cap →
    ∃ status, httpResponse current b last cap = .done status (payload.take (cap - 1))

/-- `net_http_get` takes the body for chunked. -/
def View.netChunked (v : View) : Bool := containsCi v.head (ascii "transfer-encoding: chunked")

/-- The length that `net_http_get` reads off, if there is a field, and if it is a number. -/
def View.netLength (v : View) : Option (Option ℕ) :=
  (headerValueCi v.head (ascii "Content-Length") 32).map parseSizeDec

def View.hasBom (v : View) : Bool := [0xEF, 0xBB, 0xBF].isPrefixOf v.src

/-- **The condition under which both framings agree.** -/
def View.Same (arch : Arch) (v : View) : Prop :=
  match v.seen with
  | .sized 0 =>
    if v.netChunked = true ∨ v.netLength = none then stripBom v.src = []
    else v.netLength = some (some 0)
  | .sized n =>
    v.netChunked = false ∧ v.hasBom = false ∧
      (v.netLength = some (some n) ∨ v.netLength = none ∧ v.src.length = n)
  | .chunked =>
    v.netChunked = true ∧ v.payload arch ≠ [] ∧ ∀ c ∈ v.chunks arch, PlainLine c.1

/-- Bytes in which two different framings can delimit the same text: data that repeats what stands
before it, an extension with a carriage return in it, or a body behind the body. -/
def View.Repeats (arch : Arch) (v : View) : Prop :=
  match v.seen with
  | .sized n =>
    0 < n ∧ ((v.netChunked = true ∧ n < v.src.length) ∨
      (v.hasBom = true ∧ (v.src.drop 3).take n = v.src.take n))
  | .chunked =>
    (v.netLength = some (some (v.payload arch).length) ∧ v.payload arch <+: v.src) ∨
      ∃ c ∈ v.chunks arch, cr ∈ c.1

/-! ## The frame and the call in terms of the view -/

def View.Complete (arch : Arch) (v : View) : Prop :=
  match v.seen with
  | .sized n => n ≤ v.src.length
  | .chunked => chunkedComplete arch v.src = .complete

section

variable {arch : Arch} {b : List UInt8} {v : View}

/-- A complete frame has a view that is complete. -/
theorem view_of_complete (h : httpFrameComplete arch b = .complete) :
    ∃ v, view arch b = some v ∧ v.Complete arch := by
  unfold httpFrameComplete at h
  unfold view
  cases hbd : headerBoundary b with
  | none => simp [hbd] at h
  | some bd =>
    simp only [hbd] at h ⊢
    cases hcode : parseStatus (b.take bd.headEnd) with
    | none => simp [hcode] at h
    | some code =>
      simp only [hcode] at h ⊢
      split at h
      · next hno =>
        rw [if_pos hno]
        exact ⟨_, rfl, Nat.zero_le _⟩
      · next hno =>
        rw [if_neg hno]
        cases hf : scanHeader arch (b.take bd.headEnd) with
        | none => simp [hf] at h
        | some f =>
          simp only [hf] at h ⊢
          split at h
          · next hchunked =>
            rw [if_pos hchunked]
            exact ⟨_, rfl, h⟩
          · next hchunked =>
            rw [if_neg hchunked]
            cases hlen : f.contentLen with
            | none => simp [hlen] at h
            | some n =>
              simp only [hlen, Option.map_some] at h ⊢
              refine ⟨_, rfl, ?_⟩
              split at h
              · simp at h
              · split at h
                · next hge =>
                  show n ≤ (b.drop bd.bodyOff).length
                  rw [List.length_drop]
                  omega
                · simp at h

/-- Where `parse_status` finds a code, `http_status_code` finds the same. -/
theorem httpStatusCode_eq {head : List UInt8} {code : ℕ} (h : parseStatus head = some code) :
    httpStatusCode head = code := by
  have hs := List.takeWhile_append_dropWhile
    (p := fun c : UInt8 => decide (c ≠ 32 ∧ c ≠ cr ∧ c ≠ lf)) (l := head)
  unfold parseStatus at h
  cases hd : head.dropWhile (fun c => decide (c ≠ 32 ∧ c ≠ cr ∧ c ≠ lf)) with
  | nil =>
    rw [hd] at h
    simp at h
  | cons c rest =>
    by_cases hc : c = 32
    · have hfirst : head.dropWhile (fun c => decide (c ≠ 32)) = c :: rest := by
        rw [← hs, hd, List.dropWhile_append_of_pos, List.dropWhile_cons_of_neg (by simp [hc])]
        intro x hx
        have := List.mem_takeWhile_imp hx
        simp only [decide_eq_true_eq] at this
        simpa using this.1
      unfold httpStatusCode
      rw [hd] at h
      rw [hfirst]
      generalize (c :: rest).dropWhile (fun c => decide (c = 32)) = digits at h ⊢
      match digits, h with
      | [], h => simp at h
      | [_], h => simp at h
      | [_, _], h => simp at h
      | x :: y :: z :: _, h =>
        simp only at h ⊢
        split at h
        · next hdig => rw [if_pos hdig, Option.some.inj h]
        · simp at h
    · -- a line end is no digit
      have hstop := dropWhile_head?_of (p := fun c : UInt8 => decide (c ≠ 32 ∧ c ≠ cr ∧ c ≠ lf))
        (l := head) (c := c) (by rw [hd]; rfl)
      have hend : c = cr ∨ c = lf := by
        by_contra hno
        simp only [not_or] at hno
        simp [hc, hno] at hstop
      have hdig : isDigit c = false := by
        rcases hend with rfl | rfl <;> decide
      rw [hd, List.dropWhile_cons_of_neg (by simpa using hc)] at h
      split at h
      · next x y z _ heq =>
        simp only [List.cons.injEq] at heq
        rw [← heq.1, hdig] at h
        simp at h
      · simp at h

/-- The status of a message is not a redirect. -/
def NotRedirect (b : List UInt8) : Prop :=
  ∀ bd code, headerBoundary b = some bd → parseStatus (b.take bd.headEnd) = some code →
    redirectCode code = false

theorem view_spec (hv : view arch b = some v) :
    ∃ bd code, headerBoundary b = some bd ∧ parseStatus (b.take bd.headEnd) = some code ∧
      v.head = b.take bd.headEnd ∧ v.src = b.drop bd.bodyOff := by
  unfold view at hv
  cases hbd : headerBoundary b with
  | none => simp [hbd] at hv
  | some bd =>
    simp only [hbd] at hv
    cases hcode : parseStatus (b.take bd.headEnd) with
    | none => simp [hcode] at hv
    | some code =>
      refine ⟨bd, code, rfl, hcode, ?_⟩
      simp only [hcode] at hv
      split at hv
      · rw [← Option.some.inj hv]
        exact ⟨rfl, rfl⟩
      · split at hv
        · simp at hv
        · split at hv
          · rw [← Option.some.inj hv]
            exact ⟨rfl, rfl⟩
          · obtain ⟨n, -, rfl⟩ := Option.map_eq_some_iff.mp hv
            exact ⟨rfl, rfl⟩

/-- Without a redirect, the call comes down to the extraction of the body. -/
theorem delivers_iff (hv : view arch b = some v) (hb : NotRedirect b) (payload : List UInt8) :
    Delivers b payload ↔
      ∀ cap, 2 ≤ cap → extractBody v.head v.src cap = .ok (payload.take (cap - 1)) := by
  obtain ⟨bd, code, hbd, hcode, hhead, hsrc⟩ := view_spec hv
  have hred : redirectCode (httpStatusCode v.head) = false := by
    rw [hhead, httpStatusCode_eq hcode]
    exact hb bd code hbd hcode
  have hresponse : ∀ (cap : ℕ) (current : List UInt8) (last : Bool),
      httpResponse current b last cap =
        verdictOf (b.takeWhile (! isLineEnd ·)) (extractBody v.head v.src cap) := by
    intro cap current last
    rw [httpResponse_of_boundary hbd (hhead ▸ hred), hhead, hsrc]
  constructor
  · intro h cap hcap
    obtain ⟨status, hdone⟩ := h cap [] false hcap
    rw [hresponse] at hdone
    cases hbody : extractBody v.head v.src cap with
    | error e =>
      rw [hbody] at hdone
      cases hdone
    | ok body =>
      rw [hbody] at hdone
      injection hdone with _ hbody'
      rw [hbody']
  · intro h cap current last hcap
    exact ⟨_, by rw [hresponse, h cap hcap]; rfl⟩

end

/-! ## The extraction -/

section

variable {arch : Arch} {v : View}

/-- `extract_body` in terms of what `net_http_get` reads off. -/
theorem extractBody_view (v : View) (cap : ℕ) :
    extractBody v.head v.src cap =
      if v.netChunked then
        if decodeChunked (stripBom v.src) cap = [] ∧ stripBom v.src ≠ [] then
          .error "Invalid chunked response"
        else .ok (decodeChunked (stripBom v.src) cap)
      else
        match v.netLength with
        | none => .ok ((stripBom v.src).take (cap - 1))
        | some none => .error "Invalid Content-Length"
        | some (some n) =>
          if (stripBom v.src).length < n then .error "Truncated HTTP body"
          else .ok (((stripBom v.src).take n).take (cap - 1)) := by
  unfold extractBody View.netChunked View.netLength
  simp only
  split
  · rfl
  · cases headerValueCi v.head (ascii "Content-Length") 32 with
    | none => rfl
    | some text =>
      simp only [Option.map_some]
      cases parseSizeDec text with
      | none => rfl
      | some n => rfl

/-- What is delivered in every buffer. -/
def View.Extracts (v : View) (payload : List UInt8) : Prop :=
  ∀ cap, 2 ≤ cap → extractBody v.head v.src cap = .ok (payload.take (cap - 1))

theorem decodeChunked_nil (cap : ℕ) : decodeChunked [] cap = [] := by
  unfold decodeChunked
  split <;> rfl

/-- **A message without a payload.** -/
theorem extracts_nil_iff (v : View) :
    v.Extracts [] ↔ if v.netChunked = true ∨ v.netLength = none then stripBom v.src = []
      else v.netLength = some (some 0) := by
  unfold View.Extracts
  simp only [extractBody_view, List.take_nil]
  by_cases hc : v.netChunked = true
  · simp only [hc, if_true, true_or]
    constructor
    · intro h
      have h2 := h 2 le_rfl
      split at h2
      · simp at h2
      · next hno =>
        by_contra hne
        exact hno ⟨Except.ok.inj h2, hne⟩
    · intro hnil cap _
      rw [hnil, decodeChunked_nil]
      simp
  · simp only [hc, Bool.false_eq_true, if_false, false_or]
    cases hl : v.netLength with
    | none =>
      simp only [if_true]
      constructor
      · intro h
        have h2 := Except.ok.inj (h 2 le_rfl)
        simpa using h2
      · intro hnil cap _
        rw [hnil, List.take_nil]
    | some parsed =>
      cases parsed with
      | none =>
        simp only [reduceCtorEq, if_false, Option.some.injEq, iff_false, not_forall]
        exact ⟨2, le_rfl, by simp⟩
      | some n =>
        simp only [reduceCtorEq, if_false, Option.some.injEq]
        constructor
        · intro h
          have h2 := h 2 le_rfl
          split at h2
          · simp at h2
          · next hlen =>
            have := congrArg List.length (Except.ok.inj h2)
            simp only [List.length_take, List.length_nil] at this
            omega
        · rintro rfl cap _
          simp

/-- Without a byte-order mark nothing is stripped. -/
theorem stripBom_of (h : v.hasBom = false) : stripBom v.src = v.src := by
  unfold View.hasBom at h
  unfold stripBom
  rw [h]
  rfl

theorem stripBom_bom (h : v.hasBom = true) : stripBom v.src = v.src.drop 3 := by
  unfold View.hasBom at h
  unfold stripBom
  rw [h]
  rfl

/-- A buffer that is large enough shows everything. -/
theorem eq_of_take {x y : List UInt8} {f : ℕ → Except String (List UInt8)}
    (hx : ∀ cap, f cap = .ok (x.take (cap - 1))) (h : ∀ cap, 2 ≤ cap → f cap = .ok (y.take (cap - 1))) :
    x = y := by
  have h1 := h (x.length + y.length + 2) (by omega)
  rw [hx] at h1
  have h2 := Except.ok.inj h1
  rwa [List.take_of_length_le (by omega), List.take_of_length_le (by omega)] at h2

theorem stripBom_length (s : List UInt8) : (stripBom s).length ≤ s.length := by
  unfold stripBom
  split
  · rw [List.length_drop]
    omega
  · exact le_rfl

theorem decodeChunked_length (s : List UInt8) (cap : ℕ) : (decodeChunked s cap).length ≤ s.length - 1 := by
  unfold decodeChunked
  split
  · simp
  · simpa using decodeLoop_length cap s.length s []

/-- What `net_http_get` delivers if it does not take the body for chunked. -/
theorem extracts_plain {payload : List UInt8} (hc : v.netChunked = false) (h : v.Extracts payload) :
    (v.netLength = none ∧ stripBom v.src = payload) ∨
      ∃ n, v.netLength = some (some n) ∧ n ≤ (stripBom v.src).length ∧
        (stripBom v.src).take n = payload := by
  unfold View.Extracts at h
  simp only [extractBody_view, hc, Bool.false_eq_true, if_false] at h
  cases hl : v.netLength with
  | none =>
    rw [hl] at h
    exact .inl ⟨rfl, eq_of_take (fun _ => rfl) h⟩
  | some parsed =>
    rw [hl] at h
    cases parsed with
    | none => exact absurd (h 2 le_rfl) (by simp)
    | some n =>
      simp only at h
      by_cases hlt : (stripBom v.src).length < n
      · simp only [hlt, if_true] at h
        exact absurd (h 2 le_rfl) (by simp)
      · simp only [hlt, if_false] at h
        exact .inr ⟨n, rfl, by omega, eq_of_take (fun _ => rfl) h⟩

/-- **A message with a length.** -/
theorem extracts_sized {n : ℕ} (hn : 0 < n) (hlen : n ≤ v.src.length) :
    ((v.netChunked = false ∧ v.hasBom = false ∧
        (v.netLength = some (some n) ∨ v.netLength = none ∧ v.src.length = n)) →
      v.Extracts (v.src.take n)) ∧
    (v.Extracts (v.src.take n) →
      (v.netChunked = false ∧ v.hasBom = false ∧
        (v.netLength = some (some n) ∨ v.netLength = none ∧ v.src.length = n)) ∨
      (v.netChunked = true ∧ n < v.src.length) ∨
      (v.hasBom = true ∧ (v.src.drop 3).take n = v.src.take n)) := by
  constructor
  · rintro ⟨hc, hb, hl | ⟨hl, heq⟩⟩ cap _
    · rw [extractBody_view, hc, hl, stripBom_of hb]
      simp only [Bool.false_eq_true, if_false]
      rw [if_neg (by omega)]
    · rw [extractBody_view, hc, hl, stripBom_of hb]
      simp only [Bool.false_eq_true, if_false]
      rw [← heq, List.take_length]
  · intro h
    by_cases hc : v.netChunked = true
    · right
      left
      refine ⟨hc, ?_⟩
      by_contra hge
      -- with nothing behind the body, decoding would make it shorter
      have h1 := h (v.src.length + 2) (by omega)
      rw [extractBody_view, hc, if_pos rfl, List.take_take, List.take_of_length_le (by omega)] at h1
      split at h1
      · simp at h1
      · have hshort := decodeChunked_length (stripBom v.src) (v.src.length + 2)
        have hbom := stripBom_length v.src
        rw [Except.ok.inj h1] at hshort
        omega
    · rw [Bool.not_eq_true] at hc
      by_cases hb : v.hasBom = true
      · right
        right
        refine ⟨hb, ?_⟩
        rcases extracts_plain hc h with ⟨-, heq⟩ | ⟨m, -, hm, heq⟩
        · rw [stripBom_bom hb] at heq
          rw [heq, List.take_take, min_self]
        · rw [stripBom_bom hb] at hm heq
          have hmn : m = n := by
            have := congrArg List.length heq
            rw [List.length_take, List.length_take] at this
            omega
          rw [← hmn, heq, hmn]
      · rw [Bool.not_eq_true] at hb
        left
        refine ⟨hc, hb, ?_⟩
        rcases extracts_plain hc h with ⟨hl, heq⟩ | ⟨m, hl, hm, heq⟩
        · right
          refine ⟨hl, ?_⟩
          rw [stripBom_of hb] at heq
          have := congrArg List.length heq
          rw [List.length_take] at this
          omega
        · left
          rw [stripBom_of hb] at hm heq
          have := congrArg List.length heq
          rw [List.length_take, List.length_take] at this
          rw [hl, show m = n by omega]

/-- **A chunked message.** -/
theorem extracts_chunked (hsmall : v.src.length ≤ 0x100000)
    (hcomplete : chunkedComplete arch v.src = .complete) :
    ((v.netChunked = true ∧ walkData (v.chunks arch) ≠ [] ∧ ∀ c ∈ v.chunks arch, PlainLine c.1) →
      v.Extracts (walkData (v.chunks arch))) ∧
    (v.Extracts (walkData (v.chunks arch)) →
      (v.netChunked = true ∧ walkData (v.chunks arch) ≠ [] ∧ ∀ c ∈ v.chunks arch, PlainLine c.1) ∨
      (v.netLength = some (some (walkData (v.chunks arch)).length) ∧
        walkData (v.chunks arch) <+: v.src) ∨
      ∃ c ∈ v.chunks arch, cr ∈ c.1) := by
  have hwalk : Walk arch v.src (v.chunks arch) := walk_of_complete _ _ hcomplete
  have hbom : v.hasBom = false := hwalk.no_bom
  have hpos : v.src ≠ [] := by
    intro hnil
    have := hwalk.data_lt
    rw [hnil] at this
    exact absurd this (Nat.not_lt_zero _)
  have hdecode : ∀ cap, 2 ≤ cap → (∀ c ∈ v.chunks arch, cr ∉ c.1) →
      decodeChunked v.src cap =
        if ∀ c ∈ v.chunks arch, PlainLine c.1 then (walkData (v.chunks arch)).take (cap - 1) else [] := by
    intro cap hcap hcr
    unfold decodeChunked
    rw [if_neg (by omega), hwalk.decodeLoop hcr _ [] le_rfl hsmall (Nat.zero_le _)]
    simp
  constructor
  · rintro ⟨hc, hne, hplain⟩ cap hcap
    have htake : (walkData (v.chunks arch)).take (cap - 1) ≠ [] := by
      simp only [ne_eq, List.take_eq_nil_iff, not_or]
      exact ⟨by omega, hne⟩
    rw [extractBody_view, hc, stripBom_of hbom, hdecode cap hcap (fun c hcm => (hplain c hcm).1),
      if_pos hplain]
    simp [htake]
  · intro h
    by_cases hcr : ∃ c ∈ v.chunks arch, cr ∈ c.1
    · exact .inr (.inr hcr)
    simp only [not_exists, not_and] at hcr
    by_cases hc : v.netChunked = true
    · -- the decoder gives something, so every size line is plain
      left
      have h2 := h 2 le_rfl
      rw [extractBody_view, hc, if_pos rfl, stripBom_of hbom, hdecode 2 le_rfl hcr] at h2
      by_cases hplain : ∀ c ∈ v.chunks arch, PlainLine c.1
      · refine ⟨hc, ?_, hplain⟩
        intro hnil
        rw [if_pos hplain, hnil] at h2
        simp [hpos] at h2
      · rw [if_neg hplain] at h2
        simp [hpos] at h2
    · right
      left
      rw [Bool.not_eq_true] at hc
      rcases extracts_plain hc h with ⟨-, heq⟩ | ⟨n, hl, hn, heq⟩
      · rw [stripBom_of hbom] at heq
        have := hwalk.data_lt
        rw [← heq] at this
        exact absurd this (lt_irrefl _)
      · rw [stripBom_of hbom] at hn heq
        have hlen : (walkData (v.chunks arch)).length = n := by
          rw [← heq, List.length_take]
          omega
        rw [hlen]
        exact ⟨hl, heq ▸ List.take_prefix _ _⟩

end

/-! ## Agreement -/

/-- The condition, for a message. -/
def SameFraming (arch : Arch) (b : List UInt8) : Prop := ∃ v, view arch b = some v ∧ v.Same arch

def RepeatedBytes (arch : Arch) (b : List UInt8) : Prop := ∃ v, view arch b = some v ∧ v.Repeats arch

/-- `net_http_get` delivers what `http_frame_complete` delimits. -/
def FramingsAgree (arch : Arch) (b : List UInt8) : Prop :=
  ∃ v, view arch b = some v ∧ Delivers b (v.payload arch)

/-- **When the two framings agree**: for a complete message that is not a redirect, the condition is
enough, and without it they can agree only by a repetition in the bytes. -/
theorem framings_agree_iff_same {arch : Arch} {b : List UInt8} (hlen : b.length < 32768)
    (hb : NotRedirect b) (hcomplete : httpFrameComplete arch b = .complete) :
    (SameFraming arch b → FramingsAgree arch b) ∧
      (FramingsAgree arch b → SameFraming arch b ∨ RepeatedBytes arch b) := by
  obtain ⟨v, hv, hvc⟩ := view_of_complete hcomplete
  have hsmall : v.src.length ≤ 0x100000 := by
    obtain ⟨bd, -, -, -, -, hsrc⟩ := view_spec hv
    rw [hsrc, List.length_drop]
    omega
  have hagree : FramingsAgree arch b ↔ v.Extracts (v.payload arch) := by
    unfold FramingsAgree
    simp only [hv, Option.some.injEq, exists_eq_left']
    exact delivers_iff hv hb _
  have hsame : SameFraming arch b ↔ v.Same arch := by simp [SameFraming, hv]
  have hrep : RepeatedBytes arch b ↔ v.Repeats arch := by simp [RepeatedBytes, hv]
  rw [hagree, hsame, hrep]
  unfold View.Same View.Repeats View.payload
  unfold View.Complete at hvc
  cases hseen : v.seen with
  | chunked =>
    rw [hseen] at hvc
    exact extracts_chunked hsmall hvc
  | sized n =>
    rw [hseen] at hvc
    cases n with
    | zero =>
      have h0 := extracts_nil_iff v
      exact ⟨fun h => by simpa using h0.mpr h, fun h => .inl (h0.mp (by simpa using h))⟩
    | succ n =>
      obtain ⟨hsuff, hnec⟩ := extracts_sized (Nat.succ_pos n) hvc
      refine ⟨hsuff, fun h => ?_⟩
      rcases hnec h with h | h
      · exact .inl h
      · exact .inr ⟨Nat.succ_pos n, h⟩

theorem notRedirect_of {b : List UInt8} (h : (headerBoundary b).all (fun bd =>
    (parseStatus (b.take bd.headEnd)).all fun code => ! redirectCode code) = true) : NotRedirect b := by
  intro bd code hbd hcode
  rw [hbd, Option.all_some, hcode, Option.all_some] at h
  simpa using h

/-- A chunked response as servers send it. -/
def plainChunked : List UInt8 :=
  ascii "HTTP/1.1 200 OK\r\nTransfer-Encoding: chunked\r\n\r\n2\r\nhi\r\n0\r\n\r\n"

theorem framings_agree_smoke : FramingsAgree .x86_64 plainChunked := by
  refine (framings_agree_iff_same (by decide) (notRedirect_of (by decide)) (by decide +kernel)).1 ?_
  refine ⟨⟨ascii "HTTP/1.1 200 OK\r\nTransfer-Encoding: chunked",
    ascii "2\r\nhi\r\n0\r\n\r\n", .chunked⟩, by decide +kernel, ?_, ?_, ?_⟩
  · decide
  · decide +kernel
  · decide +kernel

/-- The same without the blank behind the colon. -/
def unspacedChunked : List UInt8 :=
  ascii "HTTP/1.1 200 OK\r\nTransfer-Encoding:chunked\r\n\r\n2\r\nhi\r\n0\r\n\r\n"

/-- `net_http_get` does not take this for chunked and delivers the size lines as text. -/
theorem framings_disagree :
    unspacedChunked.length < 32768 ∧ NotRedirect unspacedChunked ∧
      httpFrameComplete .x86_64 unspacedChunked = .complete ∧
      (view .x86_64 unspacedChunked).map (View.payload .x86_64) = some (ascii "hi") ∧
      httpResponse [] unspacedChunked false 64
        = .done (ascii "HTTP/1.1 200 OK") (ascii "2\r\nhi\r\n0\r\n\r\n") ∧
      ¬ FramingsAgree .x86_64 unspacedChunked := by
  have hpayload : (view .x86_64 unspacedChunked).map (View.payload .x86_64) = some (ascii "hi") := by
    decide +kernel
  have hresponse : httpResponse [] unspacedChunked false 64
      = .done (ascii "HTTP/1.1 200 OK") (ascii "2\r\nhi\r\n0\r\n\r\n") := by decide +kernel
  refine ⟨by decide, notRedirect_of (by decide), by decide +kernel, hpayload, hresponse, ?_⟩
  rintro ⟨v, hv, h⟩
  rw [hv, Option.map_some, Option.some.injEq] at hpayload
  obtain ⟨status, hdone⟩ := h 64 [] false (by norm_num)
  rw [hresponse, hpayload, Verdict.done.injEq] at hdone
  exact absurd hdone.2 (by decide)

end Orion.Http
